import Stencil.Proofs.Template.Building

/-! The roots of templates. Each node of a tree puts at most one node at the root of its
draft, an element or a text exactly one, and the first of them is the top. Catalogs grow by
templates of that kind, under names that were free. -/
namespace Stencil
open Binding Markup

/-! ## Drafts -/

namespace Draft

/-- The top is the first node at the root. -/
def Topped (d : Draft) : Prop := d.top = (d.slotsAt .root).head?

/-- At the root there are `new` nodes more. -/
structure Roots (d e : Draft) (new : List Slot) : Prop where
  slotsAt_eq : e.slotsAt .root = d.slotsAt .root ++ new
  topped : d.Topped → e.Topped

variable {d e f : Draft} {new : List Slot}

theorem Roots.refl (d : Draft) : d.Roots d [] := ⟨(List.append_nil _).symm, id⟩

theorem Roots.trans {new' : List Slot} (h : d.Roots e new) (h' : e.Roots f new') :
    d.Roots f (new ++ new') :=
  ⟨by rw [h'.slotsAt_eq, h.slotsAt_eq, List.append_assoc], fun hd => h'.topped (h.topped hd)⟩

/-- Nothing is said of wires that put nodes elsewhere, nor of seeds and computations. -/
theorem Roots.congr_left {d' : Draft} (h : d'.Roots e new)
    (hw : d'.slotsAt .root = d.slotsAt .root) (ht : d'.top = d.top) : d.Roots e new :=
  ⟨hw ▸ h.slotsAt_eq, fun hd => h.topped (by rwa [Topped, hw, ht])⟩

theorem roots_append (parent : Parent) (child : Slot) (d : Draft) :
    d.Roots (d.append parent child) (if parent = .root then [child] else []) := by
  have hslots : (d.append parent child).slotsAt .root =
      d.slotsAt .root ++ if parent = .root then [child] else [] := by
    unfold slotsAt append
    rw [Wire.slotsAt_append]
    by_cases hp : parent = .root <;> simp [Wire.slotsAt, Wire.under, hp]
  refine ⟨hslots, fun hd => ?_⟩
  rw [Topped, hslots, append]
  by_cases hp : parent = .root
  · rw [Topped] at hd
    cases hs : d.slotsAt .root with
    | nil => simp [hp, hd, hs]
    | cons s ss => simp [hp, hd, hs]
  · simpa [hp, Topped] using hd

theorem slotsAt_wire_attr (p : Parent) (s : Slot) (space : Option String) (name value : String)
    (d : Draft) : (d.wire (.attr s space name value)).slotsAt p = d.slotsAt p := by
  simp [slotsAt, Wire.slotsAt, wire, Wire.under]

theorem roots_addAttribute {tag : String} {svg : Bool} {s : Slot} {a : Attribute}
    (h : d.addAttribute tag svg s a = .ok e) :
    e.slotsAt .root = d.slotsAt .root ∧ e.top = d.top := by
  unfold addAttribute at h
  cases hr : Segment.readAll (tidy a.value) with
  | error err => simp [hr] at h
  | ok ss =>
    simp only [hr, Except.ok.injEq] at h
    subst h
    split <;> split
    · exact ⟨slotsAt_wire_attr .., rfl⟩
    · exact ⟨rfl, rfl⟩
    · exact ⟨slotsAt_wire_attr .., rfl⟩
    · exact ⟨rfl, rfl⟩

theorem roots_addAttributes {tag : String} {svg : Bool} {s : Slot} (as : List Attribute) :
    ∀ {d e : Draft}, d.addAttributes tag svg s as = .ok e →
      e.slotsAt .root = d.slotsAt .root ∧ e.top = d.top := by
  induction as with
  | nil =>
    intro d e h
    cases h
    exact ⟨rfl, rfl⟩
  | cons a as ih =>
    intro d e h
    rw [addAttributes] at h
    cases ha : d.addAttribute tag svg s a with
    | error err => simp [ha] at h
    | ok d₁ =>
      simp only [ha] at h
      obtain ⟨hs, ht⟩ := roots_addAttribute ha
      obtain ⟨hs', ht'⟩ := ih h
      exact ⟨hs'.trans hs, ht'.trans ht⟩

theorem roots_addElement {tag : String} {svg : Bool} {as : List Attribute} {parent : Parent}
    (h : d.addElement tag svg as parent = .ok e) :
    d.Roots e (if parent = .root then [d.next] else []) := by
  unfold addElement at h
  cases ha : (d.plant (.element d.next tag svg)).addAttributes tag svg d.next as with
  | error err => simp [ha] at h
  | ok d₁ =>
    simp only [ha, Except.ok.injEq] at h
    subst h
    obtain ⟨hs, ht⟩ := roots_addAttributes as ha
    exact (roots_append parent d.next d₁).congr_left hs ht

theorem roots_addText {raw : String} {parent : Parent} (h : d.addText raw parent = .ok e) :
    d.Roots e (if parent = .root then [d.next] else []) := by
  unfold addText at h
  cases hr : Segment.readAll (tidy raw) with
  | error err => simp [hr] at h
  | ok ss =>
    simp only [hr, Except.ok.injEq] at h
    subst h
    refine (roots_append parent d.next _).congr_left ?_ ?_ <;> split <;> rfl

theorem roots_addAnchor (dir : Directive) (name : String) (path : Path) (parent : Parent)
    (d : Draft) :
    d.Roots (d.addAnchor dir name path parent) (if parent = .root then [d.next] else []) :=
  have h := roots_append parent d.next (d.plant (.anchor d.next))
  ⟨h.slotsAt_eq, h.topped⟩

end Draft

/-! ## Catalogs -/

/-- One node stands at the root, and it is the top. -/
def Template.OneRoot (t : Template) : Prop := ∃ s, t.rootSlots = [s] ∧ t.top = some s

/-- No more than one node stands at the root, and if there is one, it is the top. -/
def Template.AtMostOneRoot (t : Template) : Prop :=
  t.rootSlots.length ≤ 1 ∧ t.top = t.rootSlots.head?

theorem Template.OneRoot.atMostOneRoot {t : Template} (h : t.OneRoot) : t.AtMostOneRoot := by
  obtain ⟨s, hs, ht⟩ := h
  rw [AtMostOneRoot, hs, ht]
  exact ⟨Nat.le_refl _, rfl⟩

/-- Templates with a property were added, under names that were free. -/
structure Catalog.Gains (P : Template → Prop) (c c' : Catalog) : Prop where
  templates_eq : ∃ ts, c'.templates = c.templates ++ ts ∧ ∀ t ∈ ts, P t
  nodup_names : c.names.Nodup → c'.names.Nodup

namespace Catalog.Gains

variable {P Q : Template → Prop} {c c' c'' : Catalog}

theorem of_eq (h : c'.templates = c.templates) : c.Gains P c' :=
  ⟨⟨[], by rw [h, List.append_nil], nofun⟩, by rw [names, names, h]; exact id⟩

theorem trans (h : c.Gains P c') (h' : c'.Gains P c'') : c.Gains P c'' := by
  obtain ⟨⟨ts, hts, hP⟩, hn⟩ := h
  obtain ⟨⟨ts', hts', hP'⟩, hn'⟩ := h'
  refine ⟨⟨ts ++ ts', by rw [hts', hts, List.append_assoc], fun t ht => ?_⟩, fun h => hn' (hn h)⟩
  exact (List.mem_append.mp ht).elim (hP t) (hP' t)

theorem congr_left (h : c'.Gains P c'') (he : c'.templates = c.templates) : c.Gains P c'' :=
  (of_eq he).trans h

theorem mono (hPQ : ∀ t, P t → Q t) (h : c.Gains P c') : c.Gains Q c' := by
  obtain ⟨⟨ts, hts, hP⟩, hn⟩ := h
  exact ⟨⟨ts, hts, fun t ht => hPQ t (hP t ht)⟩, hn⟩

theorem add {t : Template} (ht : P t) (hname : c.contains t.name = false) :
    c.Gains P (c.add t) := by
  refine ⟨⟨[t], rfl, fun u hu => by rwa [List.mem_singleton.mp hu]⟩, fun hn => ?_⟩
  have hfree : t.name ∉ c.names := by simpa [contains] using hname
  rw [names, Catalog.add, List.map_append]
  refine List.nodup_append.mpr ⟨hn, List.nodup_singleton _, fun name hold name' hnew he => ?_⟩
  obtain rfl : name' = t.name := List.mem_singleton.mp hnew
  exact hfree (he ▸ hold)

theorem forall_mem (h : c.Gains P c') (hc : ∀ t ∈ c.templates, P t) : ∀ t ∈ c'.templates, P t := by
  obtain ⟨⟨ts, hts, hP⟩, _⟩ := h
  intro t ht
  rw [hts] at ht
  exact (List.mem_append.mp ht).elim (hc t) (hP t)

theorem of_not_mem (h : c.Gains P c') {t : Template} (ht : t ∈ c'.templates)
    (hc : t ∉ c.templates) : P t := by
  obtain ⟨⟨ts, hts, hP⟩, _⟩ := h
  rw [hts] at ht
  exact (List.mem_append.mp ht).elim (fun h => absurd h hc) (hP t)

end Catalog.Gains

/-! ## Builders -/

namespace Builder

/-- At the root the builder puts nodes with `P`, below other nodes none; the templates it
adds have one root each. -/
def Plants (P : List Slot → Prop) (b : Builder) : Prop :=
  ∀ (parent : Parent) (svg : Bool) (d : Draft) (w : Workshop),
    w.catalog.Gains Template.OneRoot (b parent svg d w).2.catalog ∧
    ∀ e, (b parent svg d w).1 = .ok e → ∃ new, d.Roots e new ∧
      (parent = .root → P new) ∧ (parent ≠ .root → new = [])

variable {P Q R : List Slot → Prop} {a b : Builder}

theorem Plants.mono (h : Plants P b) (hPQ : ∀ new, P new → Q new) : Plants Q b := by
  intro parent svg d w
  refine ⟨(h parent svg d w).1, fun e he => ?_⟩
  obtain ⟨new, hr, hroot, hslot⟩ := (h parent svg d w).2 e he
  exact ⟨new, hr, fun hp => hPQ new (hroot hp), hslot⟩

theorem plants_nothing (hP : P []) : Plants P nothing := fun parent svg d w =>
  ⟨.of_eq rfl, fun e he => by cases he; exact ⟨[], .refl d, fun _ => hP, fun _ => rfl⟩⟩

theorem Plants.andThen (ha : Plants P a) (hb : Plants Q b)
    (hR : ∀ xs ys, P xs → Q ys → R (xs ++ ys)) : Plants R (andThen a b) := by
  intro parent svg d w
  obtain ⟨hg₁, h₁⟩ := ha parent svg d w
  unfold Builder.andThen
  generalize a parent svg d w = r at hg₁ h₁
  obtain ⟨err | d₁, w₁⟩ := r
  · exact ⟨hg₁, fun e he => by cases he⟩
  · obtain ⟨hg₂, h₂⟩ := hb parent svg d₁ w₁
    refine ⟨hg₁.trans hg₂, fun e he => ?_⟩
    obtain ⟨xs, hxs, hP, hx⟩ := h₁ d₁ rfl
    obtain ⟨ys, hys, hQ, hy⟩ := h₂ e he
    refine ⟨xs ++ ys, hxs.trans hys, fun hp => hR xs ys (hP hp) (hQ hp), fun hp => ?_⟩
    rw [hx hp, hy hp, List.append_nil]

/-- One slot. -/
def IsSingle (new : List Slot) : Prop := ∃ s, new = [s]

/-- What one new node at the parent does to the root. -/
private theorem exists_new {d e : Draft} {parent : Parent} {s : Slot}
    (h : d.Roots e (if parent = .root then [s] else [])) : ∃ new, d.Roots e new ∧
      (parent = .root → IsSingle new) ∧ (parent ≠ .root → new = []) :=
  ⟨_, h, fun hp => ⟨s, if_pos hp⟩, fun hp => if_neg hp⟩

theorem plants_text (raw : String) : Plants IsSingle (text raw) := fun _ _ _ _ =>
  ⟨.of_eq rfl, fun _ he => exists_new (Draft.roots_addText he)⟩

theorem Plants.element {C : Builder} (hC : Plants P C) (tag : String) (as : List Attribute) :
    Plants IsSingle (element tag as C) := by
  intro parent inSvg d w
  unfold Builder.element
  dsimp only
  cases hadd : d.addElement tag (inSvg || Vocabulary.isSvgTag tag) as parent with
  | error err => exact ⟨.of_eq rfl, fun e he => by cases he⟩
  | ok d₁ =>
    obtain ⟨hg, h⟩ := hC (.slot d.next)
      ((inSvg || Vocabulary.isSvgTag tag) && tag != Vocabulary.foreignObject) d₁ w
    refine ⟨hg, fun e he => ?_⟩
    obtain ⟨new, hr, _, hnew⟩ := h e he
    have hroots := (Draft.roots_addElement hadd).trans hr
    rw [hnew nofun, List.append_nil] at hroots
    exact exists_new hroots

/-- The template that is registered has the roots that its builder plants. -/
theorem gains_register {T : Template → Prop} (hb : Plants P b) (hone : ∀ t, t.OneRoot → T t)
    (hT : ∀ t, P t.rootSlots → t.top = t.rootSlots.head? → T t) (name : String) (svg : Bool)
    (w : Workshop) : w.catalog.Gains T (register name svg b w).2.catalog := by
  unfold register
  split
  · exact .of_eq rfl
  · obtain ⟨hg, h⟩ := hb .root svg {} { w with catalog := w.catalog.reserve name }
    generalize b .root svg {} { w with catalog := w.catalog.reserve name } = r at hg h
    have hg₁ : w.catalog.Gains T r.2.catalog := (hg.mono hone).congr_left rfl
    obtain ⟨err | d, w₁⟩ := r
    · exact hg₁
    · dsimp only
      split
      · exact hg₁.trans (.of_eq rfl)
      · rename_i hfree
        obtain ⟨new, hr, hP, _⟩ := h d rfl
        have htop : d.Topped := hr.topped rfl
        have hslots : (d.finish name).rootSlots = d.slotsAt .root := Template.rootSlots_eq _
        have hnew : d.slotsAt .root = new := hr.slotsAt_eq
        have ht : T (d.finish name) := by
          refine hT _ ?_ ?_
          · rw [hslots, hnew]
            exact hP rfl
          · rw [hslots]
            exact htop
        have hadd : Catalog.Gains T (w₁.catalog.free name)
            ((w₁.catalog.free name).add (d.finish name)) := .add ht (Bool.eq_false_iff.mpr hfree)
        exact hg₁.trans (hadd.congr_left rfl)

theorem Plants.nest (hb : Plants IsSingle b) (tag : String) (dir : Directive) (value : String) :
    Plants IsSingle (nest tag dir value b) := by
  intro parent svg d w
  unfold Builder.nest
  cases Path.ofDirective value with
  | error err => exact ⟨.of_eq rfl, fun e he => by cases he⟩
  | ok path =>
    dsimp only
    have hone : ∀ t : Template, IsSingle t.rootSlots → t.top = t.rootSlots.head? → t.OneRoot := by
      rintro t ⟨s, hs⟩ ht
      exact ⟨s, hs, by rw [ht, hs]; rfl⟩
    have hcat : (w.catalog.freshName dir).2.templates = w.catalog.templates := rfl
    generalize w.catalog.freshName dir = fresh at hcat ⊢
    obtain ⟨name, cat⟩ := fresh
    dsimp only at hcat ⊢
    have hg := gains_register hb (fun _ h => h) hone name svg
      ({ w with catalog := cat }.tell (.spawned dir value tag name))
    generalize register name svg b ({ w with catalog := cat }.tell _) = r at hg ⊢
    have hg₁ : w.catalog.Gains Template.OneRoot r.2.catalog := hg.congr_left hcat
    obtain ⟨err | ⟨⟩, w₁⟩ := r
    · exact ⟨hg₁, fun e he => by cases he⟩
    · refine ⟨hg₁, fun e he => ?_⟩
      cases he
      exact exists_new (Draft.roots_addAnchor dir name path parent d)

theorem Plants.foldr_nest (hb : Plants IsSingle b) (tag : String)
    (ds : List (Directive × String)) :
    Plants IsSingle (ds.foldr (fun x b => Builder.nest tag x.1 x.2 b) b) := by
  induction ds with
  | nil => exact hb
  | cons x ds ih =>
    rw [List.foldr_cons]
    exact ih.nest tag x.1 x.2

/-- No slot or one. -/
def IsAtMostSingle (new : List Slot) : Prop := new.length ≤ 1

theorem IsSingle.isAtMostSingle {new : List Slot} (h : IsSingle new) : IsAtMostSingle new := by
  obtain ⟨s, rfl⟩ := h
  exact Nat.le_refl 1

mutual

theorem plants_ofNode : ∀ n : Node, Plants IsAtMostSingle (ofNode n) ∧
    (n.isElement = true → Plants IsSingle (ofNode n))
  | .document cs => by
    refine ⟨?_, nofun⟩
    rw [ofNode]
    cases h : ofFirstElement? cs with
    | none => exact plants_ofHead cs
    | some b => exact (plants_ofFirstElement? cs b h).mono fun _ => IsSingle.isAtMostSingle
  | .text raw => by
    rw [ofNode]
    exact ⟨(plants_text raw).mono fun _ => IsSingle.isAtMostSingle, nofun⟩
  | .element tag as cs => by
    have h : Plants IsSingle (ofNode (.element tag as cs)) := by
      rw [ofNode]
      exact ((plants_ofChildren cs).element tag _).foldr_nest tag _
    exact ⟨h.mono fun _ => IsSingle.isAtMostSingle, fun _ => h⟩

theorem plants_ofChildren : ∀ ns : List Node, Plants (fun _ => True) (ofChildren ns)
  | [] => plants_nothing trivial
  | n :: ns => (plants_ofNode n).1.andThen (plants_ofChildren ns) fun _ _ _ _ => trivial

theorem plants_ofFirstElement? : ∀ (ns : List Node) (b : Builder), ofFirstElement? ns = some b →
    Plants IsSingle b
  | [], _, h => nomatch h
  | n :: ns, b, h => by
    rw [ofFirstElement?] at h
    split at h
    · rename_i hn
      cases h
      exact (plants_ofNode n).2 hn
    · exact plants_ofFirstElement? ns b h

theorem plants_ofHead : ∀ ns : List Node, Plants IsAtMostSingle (ofHead ns)
  | [] => plants_nothing (Nat.zero_le 1)
  | n :: _ => (plants_ofNode n).1

end

/-- A tree read from a source puts one node at the root. -/
theorem plants_of_read {source : String} {tree : Node} (h : Markup.read source = .ok tree) :
    Plants IsSingle (ofNode tree) := by
  obtain ⟨tag, as, cs, rfl⟩ := exists_of_read h
  rw [ofNode, ofFirstElement?]
  exact (plants_ofNode (.element tag as cs)).2 rfl

end Builder

/-! ## Compiling -/

namespace Workshop

theorem catalog_compile (tree : Node) (name : String) (w : Workshop) :
    (w.compile tree name).2.catalog =
      (Builder.register name false (Builder.ofNode tree) w).2.catalog := by
  unfold compile
  generalize Builder.register name false (Builder.ofNode tree) w = r
  obtain ⟨err | ⟨⟩, w₁⟩ := r <;> rfl

theorem gains_compile (tree : Node) (name : String) (w : Workshop) :
    w.catalog.Gains Template.AtMostOneRoot (w.compile tree name).2.catalog := by
  rw [catalog_compile]
  exact Builder.gains_register (Builder.plants_ofNode tree).1
    (fun _ => Template.OneRoot.atMostOneRoot) (fun _ hlen htop => ⟨hlen, htop⟩) name false w

theorem gains_compile_of_read {source : String} {tree : Node} (h : Markup.read source = .ok tree)
    (name : String) (w : Workshop) :
    w.catalog.Gains Template.OneRoot (w.compile tree name).2.catalog := by
  rw [catalog_compile]
  refine Builder.gains_register (Builder.plants_of_read h) (fun _ h => h) ?_ name false w
  rintro t ⟨s, hs⟩ ht
  exact ⟨s, hs, by rw [ht, hs]; rfl⟩

theorem gains_compileAll (calls : List (Node × String)) (w : Workshop) :
    w.catalog.Gains Template.AtMostOneRoot (w.compileAll calls).catalog := by
  induction calls generalizing w with
  | nil => exact .of_eq rfl
  | cons call calls ih => exact (gains_compile call.1 call.2 w).trans (ih _)

/-- No two templates of a catalog have one name. -/
theorem nodup_names_compileAll (calls : List (Node × String)) :
    (compileAll calls {}).catalog.names.Nodup :=
  (gains_compileAll calls {}).nodup_names List.nodup_nil

end Workshop
end Stencil
