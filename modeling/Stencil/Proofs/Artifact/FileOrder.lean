import Stencil.Artifact.Build
import Stencil.Proofs.Template.Numbering

/-! The order of files. Files that can each be compiled alone, under different names, can be
compiled together unless one is named like a template that a file before it nests: such a name
is given out without regard to the files still to come. -/
namespace Stencil.Artifact
open Markup

/-- The directives of a file in order. -/
def spawnsOf (reader : Reader) (path : String) : List Directive :=
  match reader path with
  | .error _ => []
  | .ok source =>
    match Markup.read source with
    | .error _ => []
    | .ok tree => tree.spawns

/-- What files leave behind: the names of their own, those of the templates that they nest,
and the number for the next one. -/
structure Tally where
  held : List String := []
  nested : List String := []
  count : Nat := 0

def Tally.add (reader : Reader) (s : Tally) (path : String) : Tally :=
  let held := s.held ++ (nameFor? path).toList
  let drawn := Catalog.draw held s.count (spawnsOf reader path)
  ⟨held, s.nested ++ drawn.1, drawn.2⟩

/-- The names that files give to what they nest, when they are compiled in this order. -/
def nestedNames (reader : Reader) (paths : List String) : List String :=
  (paths.foldl (Tally.add reader) {}).nested

/-- No file is named like a template that is nested in a file before it; `s` tells what files
there were at the beginning. -/
def Tally.Clear (reader : Reader) (s : Tally) (paths : List String) : Prop :=
  ∀ before path after, paths = before ++ path :: after →
    ∀ name ∈ nameFor? path, name ∉ (before.foldl (Tally.add reader) s).nested

/-- No file is named like a template that is nested in a file before it. -/
def Clear (reader : Reader) (paths : List String) : Prop :=
  ∀ before path after, paths = before ++ path :: after →
    ∀ name ∈ nameFor? path, name ∉ nestedNames reader before

/-- The file gives a template, if it is compiled alone. -/
def Compiles (reader : Reader) (path : String) : Prop := (addFiles reader [path] {}).1 = .ok ()

instance (reader : Reader) (path : String) : Decidable (Compiles reader path) :=
  decidable_of_iff ((addFiles reader [path] {}).1.isOk = true) (by
    unfold Compiles
    cases (addFiles reader [path] {}).1 <;> simp [Except.isOk, Except.toBool])

variable {reader : Reader} {path : String} {paths : List String} {s : Tally} {w : Workshop}

/-! ## One file -/

theorem Compiles.exists_tree (h : Compiles reader path) : ∃ name source tree,
    nameFor? path = some name ∧ reader path = .ok source ∧ Markup.read source = .ok tree ∧
      (({} : Workshop).compile tree name).1 = .ok () := by
  unfold Compiles addFiles addFile at h
  cases hname : nameFor? path with
  | none => simp [hname] at h
  | some name =>
    cases hsource : reader path with
    | error e => simp [hname, hsource] at h
    | ok source =>
      cases htree : Markup.read source with
      | error e => simp [hname, hsource, htree] at h
      | ok tree =>
        refine ⟨name, source, tree, rfl, rfl, htree, ?_⟩
        cases hcompile : ({} : Workshop).compile tree name with
        | mk r w =>
          cases r with
          | error e => simp [hname, hsource, htree, hcompile] at h
          | ok => rfl

/-- The catalog has the templates of the files and those nested in them. -/
structure Tally.Fits (s : Tally) (c : Catalog) : Prop where
  holds : c.Holds s.held
  counter_eq : c.counter = s.count
  mem_names : ∀ x, x ∈ c.names ↔ x ∈ s.held ∨ x ∈ s.nested

theorem Tally.fits_empty : Fits {} {} where
  holds d k _ := Iff.rfl
  counter_eq := rfl
  mem_names x := by simp [Catalog.names]

/-- A file is compiled unless its name is that of a nested template. -/
theorem Tally.Fits.addFile (h : s.Fits w.catalog) (hcompiles : Compiles reader path) :
    ∃ name, nameFor? path = some name ∧ (name ∉ s.held →
      (name ∈ s.nested ∧ addFile reader path w = (.error (.compile path (.duplicate name)), w)) ∨
      (name ∉ s.nested ∧ ∃ w', addFile reader path w = (.ok (), w') ∧
        (s.add reader path).Fits w'.catalog)) := by
  obtain ⟨name, source, tree, hname, hsource, htree, halone⟩ := hcompiles.exists_tree
  refine ⟨name, hname, fun hheld => ?_⟩
  have hmem : name ∈ w.catalog.names ↔ name ∈ s.nested := by
    rw [h.mem_names, or_iff_right hheld]
  unfold Artifact.addFile
  rw [hname, hsource]
  dsimp only
  rw [htree]
  dsimp only
  by_cases hnested : name ∈ s.nested
  · refine .inl ⟨hnested, ?_⟩
    have hdup : w.compile tree name = (.error (.duplicate name), w) := by
      rcases Workshop.compile_cases tree name w with ⟨_, heq⟩ | ⟨hnot, _⟩
      · exact heq
      · exact absurd (hmem.mpr hnested) hnot
    rw [hdup]
  · refine .inr ⟨hnested, ?_⟩
    have hfree : name ∉ w.catalog.names := fun hm => hnested (hmem.mp hm)
    cases hcompile : w.compile tree name with
    | mk r w₁ =>
      have hok := Workshop.compile_of_alone htree halone hfree
      rw [hcompile] at hok
      cases hok
      obtain ⟨hholds, hcount, hperm⟩ := Workshop.draw_compile htree h.holds hfree hcompile
      have hspawns : spawnsOf reader path = tree.spawns := by
        unfold spawnsOf
        rw [hsource]
        dsimp only
        rw [htree]
      have hadd : s.add reader path = ⟨s.held ++ [name],
          s.nested ++ (Catalog.draw (s.held ++ [name]) s.count tree.spawns).1,
          (Catalog.draw (s.held ++ [name]) s.count tree.spawns).2⟩ := by
        rw [Tally.add, hname, hspawns]
        rfl
      rw [h.counter_eq] at hcount hperm
      rw [hadd]
      refine ⟨_, rfl, hholds, hcount, fun x => ?_⟩
      change x ∈ w₁.catalog.names ↔ _
      rw [hperm.mem_iff]
      simp only [List.mem_append, h.mem_names, List.mem_singleton]
      tauto

/-! ## All files -/

theorem Tally.clear_nil (reader : Reader) (s : Tally) : s.Clear reader [] := by
  intro before path after h
  cases before <;> cases h

theorem Tally.clear_cons : s.Clear reader (path :: paths) ↔
    (∀ name ∈ nameFor? path, name ∉ s.nested) ∧ (s.add reader path).Clear reader paths := by
  constructor
  · refine fun h => ⟨h [] path paths rfl, fun before p after hp => ?_⟩
    exact h (path :: before) p after (by rw [hp]; rfl)
  · rintro ⟨hpath, hpaths⟩ before p after h
    cases before with
    | nil =>
      cases h
      exact hpath
    | cons q before =>
      cases h
      exact hpaths before p after rfl

/-- The files are all compiled, or the first one that is named like a nested template is
refused. -/
theorem Tally.Fits.addFiles (h : s.Fits w.catalog) (hcompiles : ∀ p ∈ paths, Compiles reader p)
    (hnodup : (paths.map nameFor?).Nodup)
    (hheld : ∀ p ∈ paths, ∀ name ∈ nameFor? p, name ∉ s.held) :
    (s.Clear reader paths ∧ ∃ w', addFiles reader paths w = (.ok (), w') ∧
      (paths.foldl (Tally.add reader) s).Fits w'.catalog) ∨
    ∃ before p after name w', paths = before ++ p :: after ∧ s.Clear reader before ∧
      nameFor? p = some name ∧ name ∈ (before.foldl (Tally.add reader) s).nested ∧
      addFiles reader paths w = (.error (.compile p (.duplicate name)), w') := by
  induction paths generalizing s w with
  | nil => exact .inl ⟨clear_nil reader s, w, rfl, h⟩
  | cons path paths ih =>
    rw [List.forall_mem_cons] at hcompiles hheld
    rw [List.map_cons, List.nodup_cons] at hnodup
    obtain ⟨name, hname, hcases⟩ := h.addFile hcompiles.1
    have hone := hheld.1 name hname
    rw [Artifact.addFiles]
    rcases hcases hone with ⟨hnested, heq⟩ | ⟨hnested, w₁, heq, hfits⟩ <;> rw [heq]
    · exact .inr ⟨[], path, paths, name, w, rfl, clear_nil reader s, hname, hnested, rfl⟩
    · have hrest : ∀ p ∈ paths, ∀ x ∈ nameFor? p, x ∉ (s.add reader path).held := by
        intro p hp x hx hmem
        change x ∈ s.held ++ (nameFor? path).toList at hmem
        rw [hname, List.mem_append] at hmem
        rcases hmem with hmem | hmem
        · exact hheld.2 p hp x hx hmem
        · have heq : nameFor? p = nameFor? path := by
            rw [Option.mem_def.mp hx, hname, List.mem_singleton.mp hmem]
          exact hnodup.1 (heq ▸ List.mem_map_of_mem hp)
      have hfirst : ∀ x ∈ nameFor? path, x ∉ s.nested := by
        intro x hx
        rw [hname] at hx
        cases hx
        exact hnested
      dsimp only
      rcases ih hfits hcompiles.2 hnodup.2 hrest with
        ⟨hclear, w', hok, hfits'⟩ | ⟨before, p, after, x, w', rfl, hclear, hx, hmem, herr⟩
      · exact .inl ⟨clear_cons.mpr ⟨hfirst, hclear⟩, w', hok, hfits'⟩
      · exact .inr ⟨path :: before, p, after, x, w', rfl, clear_cons.mpr ⟨hfirst, hclear⟩, hx, hmem,
          herr⟩

theorem Tally.held_foldl (reader : Reader) (paths : List String) (s : Tally) :
    (paths.foldl (Tally.add reader) s).held = s.held ++ paths.filterMap nameFor? := by
  induction paths generalizing s with
  | nil => exact (List.append_nil _).symm
  | cons path paths ih =>
    rw [List.foldl_cons, ih, List.filterMap_cons, Tally.add]
    cases nameFor? path <;> simp

/-- A nested name is that of a directive of one of the files. -/
theorem Tally.exists_of_mem_nested {x : String}
    (h : x ∈ (paths.foldl (Tally.add reader) s).nested) :
    x ∈ s.nested ∨ ∃ p ∈ paths, ∃ d ∈ spawnsOf reader p, ∃ n : Nat, x = d.word ++ toString n := by
  induction paths generalizing s with
  | nil => exact .inl h
  | cons path paths ih =>
    rcases ih h with h | ⟨p, hp, hd⟩
    · rcases List.mem_append.mp h with h | h
      · exact .inl h
      · exact .inr ⟨path, List.mem_cons_self, Catalog.exists_of_mem_draw h⟩
    · exact .inr ⟨p, List.mem_cons_of_mem path hp, hd⟩

/-- No order is bad if no file is named like a directive of another one with a number. -/
theorem clear_of_unnumbered {order : List String} (hnames : (order.map nameFor?).Nodup)
    (h : ∀ p ∈ order, ∀ q ∈ order, q ≠ p → ∀ d ∈ spawnsOf reader q, ∀ n : Nat,
      nameFor? p ≠ some (d.word ++ toString n)) : Clear reader order := by
  rintro before p after rfl name hname hmem
  obtain hnil | ⟨q, hq, d, hd, n, rfl⟩ := Tally.exists_of_mem_nested hmem
  · cases hnil
  · refine h p (by simp) q (by simp [hq]) ?_ d hd n hname
    rintro rfl
    rw [List.map_append, List.nodup_append] at hnames
    exact hnames.2.2 _ (List.mem_map_of_mem hq) _ (by simp) rfl

/-- Files that can each be compiled alone, under different names, are compiled together in an
order exactly when none is named like a template nested in a file before it; then each has its
template. Otherwise the first such file is refused. So every order will do if no file is named
like a directive of another one with a number. -/
theorem addFiles_order (reader : Reader) {paths order : List String}
    (hnames : (paths.map nameFor?).Nodup) (hcompiles : ∀ p ∈ paths, Compiles reader p)
    (horder : order.Perm paths) :
    ((addFiles reader order {}).1 = .ok () ↔ Clear reader order) ∧
    ((addFiles reader order {}).1 = .ok () → ∀ p ∈ paths, ∃ name, nameFor? p = some name ∧
      name ∈ (addFiles reader order {}).2.catalog.names) ∧
    (∀ e, (addFiles reader order {}).1 = .error e → ∃ before p after name,
      order = before ++ p :: after ∧ Clear reader before ∧ nameFor? p = some name ∧
        name ∈ nestedNames reader before ∧ e = .compile p (.duplicate name)) ∧
    ((∀ p ∈ paths, ∀ q ∈ paths, q ≠ p → ∀ d ∈ spawnsOf reader q, ∀ n : Nat,
        nameFor? p ≠ some (d.word ++ toString n)) → Clear reader order) := by
  have hnodup : (order.map nameFor?).Nodup := (horder.map nameFor?).nodup_iff.mpr hnames
  have hmem : ∀ p, p ∈ order ↔ p ∈ paths := fun p => horder.mem_iff
  have hunnumbered := @clear_of_unnumbered reader order hnodup
  simp only [hmem] at hunnumbered
  have hcases := Tally.fits_empty.addFiles (w := {})
    (fun p hp => hcompiles p ((hmem p).mp hp)) hnodup fun _ _ _ _ => List.not_mem_nil
  rcases hcases with ⟨hclear, w, heq, hfits⟩ |
    ⟨before, p, after, name, w, rfl, hclear, hname, hin, heq⟩
  · rw [heq]
    refine ⟨iff_of_true rfl hclear, fun _ p hp => ?_, fun e he => (by cases he), hunnumbered⟩
    obtain ⟨name, _, _, hname, _⟩ := (hcompiles p hp).exists_tree
    refine ⟨name, hname, (hfits.mem_names name).mpr (.inl ?_)⟩
    rw [Tally.held_foldl]
    exact List.mem_filterMap.mpr ⟨p, (hmem p).mpr hp, hname⟩
  · have hnot : ¬ Clear reader (before ++ p :: after) :=
      fun h => h before p after rfl name hname hin
    rw [heq]
    refine ⟨iff_of_false (fun h => (by cases h)) hnot, fun h => (by cases h), fun e he => ?_,
      hunnumbered⟩
    cases he
    exact ⟨before, p, after, name, rfl, hclear, hname, hin, rfl⟩

/-- A file that is named like a directive with a number, before one that has this directive. -/
theorem addFiles_order_numbered :
    let reader : Reader := fun path =>
      .ok (if path = "if1.yat" then "<ul><li for=\"b\"/></ul>" else "<p if=\"a\">x</p>")
    let paths := ["views/page.yat", "if1.yat"]
    let order := ["if1.yat", "views/page.yat"]
    (paths.map nameFor?).Nodup ∧ (∀ p ∈ paths, Compiles reader p) ∧ order.Perm paths ∧
      nestedNames reader order = ["for0", "if2"] ∧ (addFiles reader order {}).1 = .ok () ∧
      ∀ p ∈ paths, ∃ name, nameFor? p = some name ∧
        name ∈ (addFiles reader order {}).2.catalog.names := by
  intro reader paths order
  have hnames : (paths.map nameFor?).Nodup := by decide
  have hcompiles : ∀ p ∈ paths, Compiles reader p := by decide +kernel
  have horder : order.Perm paths := List.Perm.swap _ _ _
  have hclear : Tally.Clear reader {} order :=
    Tally.clear_cons.mpr ⟨by decide, Tally.clear_cons.mpr ⟨by decide +kernel, Tally.clear_nil _ _⟩⟩
  obtain ⟨hok, hregistered, _⟩ := addFiles_order reader hnames hcompiles horder
  have hdone := hok.mpr hclear
  exact ⟨hnames, hcompiles, horder, by decide +kernel, hdone, hregistered hdone⟩

/-- A file is refused because one before it took its name for a nested template; in the other
order both are compiled. -/
theorem name_taken_by_nested :
    let reader : Reader := fun path =>
      .ok (if path = "if0.yat" then "<p>y</p>" else "<p if=\"a\">x</p>")
    (["page.yat", "if0.yat"].map nameFor?).Nodup ∧
      (∀ p ∈ ["page.yat", "if0.yat"], Compiles reader p) ∧
      (addFiles reader ["page.yat", "if0.yat"] {}).1 =
        .error (.compile "if0.yat" (.duplicate "if0")) ∧
      (addFiles reader ["if0.yat", "page.yat"] {}).2.catalog.names = ["if0", "if1", "page"] := by
  intro reader
  exact ⟨by decide, by decide +kernel, failure?_eq_some.mp (by decide +kernel), by decide +kernel⟩

end Stencil.Artifact
