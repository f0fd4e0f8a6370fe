import Stencil.Proofs.Script.Splicing
import Stencil.Proofs.Script.Tables
import Stencil.Proofs.Template.WellFormed

/-! What scripts refer to. The nodes, variables and groups that occur in the script of a
compiled template are declared, each once; the computations that a route calls are entries
of the table of computations; and the table of routes has the keys of the routes in order. -/
namespace Stencil
open Binding Markup Text

namespace Script

/-! ## Names -/

theorem toList_node (s : Slot) : (node s).toList = 'n' :: Nat.toDigits 16 s := by
  simp [node]

theorem toList_toString (n : Nat) : (toString n).toList = Nat.toDigits 10 n := by
  rw [Nat.toString_eq_ofList_toDigits, String.toList_ofList]

theorem toList_var (v : Var) : (var v).toList = 'v' :: Nat.toDigits 10 v := by
  rw [var, String.toList_append, toList_toString]
  rfl

theorem toList_group (g : Group) : (group g).toList = 'c' :: Nat.toDigits 10 g := by
  rw [group, String.toList_append, toList_toString]
  rfl

theorem isDigit_of_mem_toDigits {n : Nat} {c : Char} (h : c ∈ Nat.toDigits 10 n) :
    c.isDigit = true := Nat.isDigit_of_mem_toDigits (by decide) (by decide) h

theorem isName_node (s : Slot) : isName (node s).toList = true := by
  have hdigit : ∀ k < 16, isHexDigit (Nat.digitChar k) = true := by decide
  have hall : (Nat.toDigits 16 s).all isHexDigit = true := by
    rw [List.all_eq_true]
    intro c hc
    obtain ⟨k, hk, rfl⟩ := exists_digitChar_of_mem hc
    exact hdigit k hk
  simp [toList_node, isName, hall, Nat.toDigits_ne_nil]

theorem isName_decimal {c : Char} (hc : c = 'v' ∨ c = 'c') (n : Nat) :
    isName (c :: Nat.toDigits 10 n) = true := by
  have hall : (Nat.toDigits 10 n).all Char.isDigit = true :=
    List.all_eq_true.mpr fun _ => isDigit_of_mem_toDigits
  simp [isName, hall, hc, Nat.toDigits_ne_nil]

theorem isName_var (v : Var) : isName (var v).toList = true :=
  toList_var v ▸ isName_decimal (.inl rfl) v

theorem isName_group (g : Group) : isName (group g).toList = true :=
  toList_group g ▸ isName_decimal (.inr rfl) g

/-- The number that hexadecimal digits write. -/
def hexNumber (ds : List Char) : Nat :=
  ds.foldl (fun a c => a * 16 + (Json.Reader.hexValue? c).getD 0) 0

theorem hexNumber_append (ds : List Char) (c : Char) :
    hexNumber (ds ++ [c]) = hexNumber ds * 16 + (Json.Reader.hexValue? c).getD 0 := by
  simp [hexNumber]

theorem hexNumber_toDigits (n : Nat) : hexNumber (Nat.toDigits 16 n) = n := by
  have hdigit : ∀ k < 16, (Json.Reader.hexValue? (Nat.digitChar k)).getD 0 = k := by decide
  induction n using Nat.strongRecOn with
  | ind n ih =>
    by_cases hn : n < 16
    · rw [Nat.toDigits_of_lt_base hn]
      simp [hexNumber, hdigit n hn]
    · have hdiv := ih (n / 16) (Nat.div_lt_self (by omega) (by decide))
      have hmod := hdigit (n % 16) (Nat.mod_lt n (by decide))
      rw [Nat.toDigits_of_base_le (by decide) (Nat.le_of_not_lt hn), hexNumber_append, hdiv, hmod]
      exact Nat.div_add_mod' n 16

theorem toDigits_injective : Function.Injective (Nat.toDigits 16) :=
  Function.LeftInverse.injective hexNumber_toDigits

theorem toDigits_ten_injective : Function.Injective (Nat.toDigits 10) := by
  intro m n h
  rw [← Nat.ofDigitChars_ten_toDigits (n := m), h, Nat.ofDigitChars_ten_toDigits]

theorem continuesIdentifier_of_isHexDigit {c : Char} (h : isHexDigit c = true) :
    continuesIdentifier c = true := by
  rw [isHexDigit, Bool.or_eq_true] at h
  rcases h with h | h
  · rw [continuesIdentifier, h, Bool.or_true]
  · have hletters : "abcdefABCDEF".toList.all continuesIdentifier = true := by decide
    exact List.all_eq_true.mp hletters c (List.contains_iff_mem.mp h)

theorem isWord_of_isName {x : String} (h : isName x.toList = true) : IsWord x := by
  unfold IsWord
  cases hx : x.toList with
  | nil => rw [hx] at h; cases h
  | cons c ds =>
    rw [hx, isName, Bool.and_eq_true, Bool.or_eq_true, Bool.and_eq_true, Bool.and_eq_true,
      Bool.or_eq_true, beq_iff_eq, beq_iff_eq, beq_iff_eq, List.all_eq_true, List.all_eq_true] at h
    refine ⟨List.cons_ne_nil c ds, fun d hd => ?_⟩
    rcases List.mem_cons.mp hd with rfl | hd
    · rcases h.2 with ⟨rfl, _⟩ | ⟨rfl | rfl, _⟩ <;> decide
    · rcases h.2 with ⟨_, hall⟩ | ⟨_, hall⟩
      · exact continuesIdentifier_of_isHexDigit (hall d hd)
      · rw [continuesIdentifier, hall d hd, Bool.or_true]

theorem not_mem_reserved {w : List Char} (h : isName w = true) : w ∉ reserved := by
  intro hm
  simp only [reserved, List.mem_cons, List.not_mem_nil, or_false] at hm
  rcases hm with rfl | rfl | rfl <;> cases h

theorem isWord_of_isIdentifier {x : String} (h : isIdentifier x = true) : IsWord x := by
  refine ⟨fun hx => ?_, fun c hc => continuesIdentifier_of_mem h hc⟩
  rw [isIdentifier, hx] at h
  cases h

end Script

/-- The names of the nodes, variables and groups of a template. -/
def Template.identifiers (t : Template) : List (List Char) :=
  t.seeds.map (fun s => (Script.node s.slot).toList) ++
    (List.range t.varCount).map (fun v => (Script.var v).toList) ++
    (List.range t.groupCount).map (fun g => (Script.group g).toList)

namespace Template

theorem node_mem_identifiers (t : Template) {s : Seed} (hs : s ∈ t.seeds) :
    (Script.node s.slot).toList ∈ t.identifiers :=
  List.mem_append_left _ (List.mem_append_left _ (List.mem_map.mpr ⟨s, hs, rfl⟩))

theorem var_mem_identifiers (t : Template) {v : Nat} (hv : v < t.varCount) :
    (Script.var v).toList ∈ t.identifiers :=
  List.mem_append_left _ (List.mem_append_right _
    (List.mem_map.mpr ⟨v, List.mem_range.mpr hv, rfl⟩))

theorem group_mem_identifiers (t : Template) {g : Nat} (hg : g < t.groupCount) :
    (Script.group g).toList ∈ t.identifiers :=
  List.mem_append_right _ (List.mem_map.mpr ⟨g, List.mem_range.mpr hg, rfl⟩)

theorem isName_of_mem_identifiers (t : Template) {w : List Char} (h : w ∈ t.identifiers) :
    Script.isName w = true := by
  rcases List.mem_append.mp h with h | h
  · rcases List.mem_append.mp h with h | h
    · obtain ⟨s, _, rfl⟩ := List.mem_map.mp h
      exact Script.isName_node s.slot
    · obtain ⟨v, _, rfl⟩ := List.mem_map.mp h
      exact Script.isName_var v
  · obtain ⟨g, _, rfl⟩ := List.mem_map.mp h
    exact Script.isName_group g

/-- The text can stand in a function of the script. -/
abbrev Utters (t : Template) (x : String) (opened : Bool) : Prop :=
  Script.Reads (Script.Body t.identifiers t.computations.length) x opened

theorem WellFormed.nodup_identifiers {t : Template} (h : t.WellFormed) :
    t.identifiers.Nodup := by
  have hnodes : (t.seeds.map fun s => (Script.node s.slot).toList).Nodup := by
    have hslots : (t.seeds.map Seed.slot).Nodup := h.slots_eq ▸ List.nodup_range
    have hmap := hslots.map fun a b (hab : (Script.node a).toList = (Script.node b).toList) => by
      rw [Script.toList_node, Script.toList_node, List.cons_inj_right] at hab
      exact Script.toDigits_injective hab
    rwa [List.map_map] at hmap
  have hdecimal : ∀ {f : Nat → String} {c : Char}, (∀ n, (f n).toList = c :: Nat.toDigits 10 n) →
      ∀ k, ((List.range k).map fun n => (f n).toList).Nodup := by
    intro f c hf k
    refine List.nodup_range.map fun a b hab => ?_
    rw [hf, hf, List.cons_inj_right] at hab
    exact Script.toDigits_ten_injective hab
  have hvars := hdecimal Script.toList_var t.varCount
  have hgroups := hdecimal Script.toList_group t.groupCount
  -- names of different kinds differ in their first letters
  refine (hnodes.append hvars ?_).append hgroups ?_
  · intro w hn hv
    obtain ⟨s, _, rfl⟩ := List.mem_map.mp hn
    obtain ⟨v, _, heq⟩ := List.mem_map.mp hv
    rw [Script.toList_var, Script.toList_node] at heq
    cases heq
  · intro w hw hg
    obtain ⟨g, _, rfl⟩ := List.mem_map.mp hg
    rcases List.mem_append.mp hw with hw | hw
    · obtain ⟨s, _, heq⟩ := List.mem_map.mp hw
      rw [Script.toList_group, Script.toList_node] at heq
      cases heq
    · obtain ⟨v, _, heq⟩ := List.mem_map.mp hw
      rw [Script.toList_group, Script.toList_var] at heq
      cases heq

end Template

namespace Script

variable {t : Template}

theorem reads_name {x : String} (hx : x.toList ∈ t.identifiers) : t.Utters x true := by
  have hname := t.isName_of_mem_identifiers hx
  exact (isWord_of_isName hname).reads (fun _ => hx) (not_mem_reserved hname)

theorem reads_node (h : t.WellFormed) {s : Nat} (hs : s < t.seeds.length) :
    t.Utters (node s) true := by
  have hslot : s ∈ t.seeds.map Seed.slot := h.slots_eq ▸ List.mem_range.mpr hs
  obtain ⟨seed, hseed, rfl⟩ := List.mem_map.mp hslot
  exact reads_name (t.node_mem_identifiers hseed)

theorem reads_var {v : Nat} (hv : v < t.varCount) : t.Utters (var v) true :=
  reads_name (t.var_mem_identifiers hv)

theorem reads_group {g : Nat} (hg : g < t.groupCount) : t.Utters (group g) true :=
  reads_name (t.group_mem_identifiers hg)

/-! ## Parts of a script -/

/-- A method of a node is called. -/
theorem reads_call (h : t.WellFormed) {s : Nat} (hs : s < t.seeds.length) {method sep : String}
    (hmethod : isText method = true) (hapart : startsApart method = true)
    (hsep : isSeparator sep = true) {xs : List String} (hxs : ∀ x ∈ xs, t.Utters x true) :
    t.Utters (node s ++ method ++ args sep xs) false :=
  ((reads_node h hs).append_apart (reads_text hmethod) hapart).append_apart (reads_args hsep hxs)
    (startsApart_args sep xs)

theorem reads_quotes (ps : List String) : ∀ x ∈ ps.map quote, t.Utters x true := by
  intro x hx
  obtain ⟨p, _, rfl⟩ := List.mem_map.mp hx
  exact (reads_quote p).loosen

theorem reads_seed (h : t.WellFormed) {s : Seed} (hs : s.slot < t.seeds.length) :
    t.Utters (seed s) false := by
  cases s with
  | element s tag svg =>
    cases svg with
    | true =>
      exact reads_call h hs (by decide) (by decide) (by decide)
        (reads_quotes [Vocabulary.svgNamespace, tag])
    | false =>
      exact reads_call h hs (by decide) (by decide) (by decide) (reads_quotes [tag])
  | text s content =>
    exact reads_call h hs (by decide) (by decide) (by decide) (reads_quotes [content])
  | anchor s =>
    exact reads_call h hs (by decide) (by decide) (by decide) (reads_quotes [""])

theorem reads_wire (h : t.WellFormed) {w : Wire} (hw : w ∈ t.wires) : t.Utters (wire w) false := by
  cases w with
  | append parent child =>
    have hlt : child < t.seeds.length := h.toSound.slot_lt (Template.mem_slotsAt.mpr hw)
    have hchild : ∀ x ∈ [node child], t.Utters x true := by
      intro x hx
      rw [List.mem_singleton.mp hx]
      exact reads_node h hlt
    cases parent with
    | root =>
      have hroot : t.Utters "root.appendChild" (endsOpen "root.appendChild") :=
        reads_text (by decide)
      exact hroot.append_apart (reads_args (by decide) hchild) (startsApart_args _ _)
    | slot p =>
      have hp := Template.lt_of_hasElement (h.parent_lt p child hw).2
      exact reads_call h hp (by decide) (by decide) (by decide) hchild
  | attr s space name value =>
    have hs := Template.lt_of_hasElement (h.attr_element s space name value hw)
    cases space with
    | none =>
      exact reads_call h hs (by decide) (by decide) (by decide)
        (reads_quotes [name, value])
    | some space =>
      exact reads_call h hs (by decide) (by decide) (by decide)
        (reads_quotes [space, name, value])

theorem reads_part {p : Part} (hp : ∀ v, p = .var v → v < t.varCount) :
    t.Utters (part p) false := by
  cases p with
  | literal s => exact reads_quote s
  | var v =>
    have htext : t.Utters "yate.text" (endsOpen "yate.text") := reads_text (by decide)
    refine htext.append_apart (reads_args (by decide) fun x hx => ?_) (startsApart_args _ _)
    rw [List.mem_singleton.mp hx]
    exact reads_var (hp v rfl)

theorem reads_expression {i : Interpolation} (hi : ∀ v ∈ i.vars, v < t.varCount) :
    t.Utters (expression i) true := by
  unfold expression
  split
  · exact (reads_quote "").loosen
  · refine reads_separated (by decide) fun x hx => ?_
    obtain ⟨p, hp, rfl⟩ := List.mem_map.mp hx
    refine (reads_part fun v hv => hi v ?_).loosen
    exact List.mem_filterMap.mpr ⟨p, hp, by rw [hv]⟩

theorem reads_propertyValue {i : Interpolation} (hi : ∀ v ∈ i.vars, v < t.varCount) :
    t.Utters (propertyValue i) true := by
  unfold propertyValue
  split
  · rename_i v hv
    exact reads_var (hi v (Interpolation.mem_vars_of_single? hv))
  · exact reads_expression hi

theorem reads_removal (h : t.WellFormed) {s : Nat} (hs : s < t.seeds.length) (name : String) :
    t.Utters (removal s name) false := by
  unfold removal
  split
  · exact reads_call h hs (by decide) (by decide) (by decide)
      (reads_quotes [Vocabulary.xlinkNamespace, "href"])
  · exact reads_call h hs (by decide) (by decide) (by decide) (reads_quotes [name])

theorem reads_clearing (h : t.WellFormed) {s : Nat} (hs : s < t.seeds.length) (x : Computation) :
    t.Utters (clearing s x) false := by
  cases x with
  | setProperty _ name _ =>
    have hclear : t.Utters "yate.clear" (endsOpen "yate.clear") := reads_text (by decide)
    have hargs : ∀ y ∈ [node s, quote name], t.Utters y true := by
      intro y hy
      rcases List.mem_cons.mp hy with rfl | hy
      · exact reads_node h hs
      · rw [List.mem_singleton.mp hy]
        exact (reads_quote name).loosen
    exact (hclear.append_apart (reads_args (by decide) hargs) (startsApart_args _ _)).append
      (reads_closed (by decide) (by decide))
  | _ => exact reads_empty

/-- The function returns when a variable is false. -/
theorem reads_guard {v : Nat} (hv : v < t.varCount) {body : String} (h : t.Utters body false) :
    t.Utters ("if (" ++ var v ++ "===false) \x7b" ++ body ++ "return;\x7d") false := by
  obtain ⟨vs, hvs, hvar⟩ := reads_var hv
  obtain ⟨bs, hbs, hbody⟩ := h
  have hif : Lexes "if (" false [.word "if".toList, .mark ' ', .mark '('] :=
    lexes_closed (by decide) (by decide)
  have hfalse : Lexes "===false) \x7b" false [.mark '=', .mark '=', .mark '=', .word "false".toList,
    .mark ')', .mark ' ', .mark '\x7b'] := lexes_closed (by decide) (by decide)
  have hreturn : Lexes "return;\x7d" false [.word "return".toList, .mark ';', .mark '\x7d'] :=
    lexes_closed (by decide) (by decide)
  exact ⟨_, (((hif.append hvs).append_apart hfalse (by decide)).append hbs).append hreturn,
    hvar.guard hbody⟩

theorem reads_computation (h : t.WellFormed) {x : Computation} (hx : t.Fits x)
    (hid : ∀ s ∈ x.spliced, isIdentifier s = true) : t.Utters (computation x) true := by
  induction x with
  | setText s value =>
    have htext : t.Utters ".textContent=" false := reads_closed (by decide) (by decide)
    exact ((reads_node h (Template.lt_of_hasText hx.1)).append_apart htext (by decide)).append
      (reads_expression hx.2)
  | setProperty s name value =>
    have hname := isWord_of_isIdentifier (hid name (List.mem_singleton_self name))
    have hnode := reads_node h (Template.lt_of_hasElement hx.1)
    have hequals : t.Utters "=" false := reads_closed (by decide) (by decide)
    rw [computation, @String.append_assoc (node s) "." name]
    exact ((hnode.append_apart hname.reads_member
      (startsApart_append (by decide) name)).append_apart
      hequals (by decide)).append (reads_propertyValue hx.2)
  | setAttribute s space name value =>
    have hs := Template.lt_of_hasElement hx.1
    have hvalue := reads_expression hx.2
    have hargs : ∀ ps : List String, ∀ y ∈ ps.map quote ++ [expression value], t.Utters y true := by
      intro ps y hy
      rcases List.mem_append.mp hy with hy | hy
      · exact reads_quotes ps y hy
      · rw [List.mem_singleton.mp hy]
        exact hvalue
    cases space with
    | none =>
      exact (reads_call h hs (by decide) (by decide) (by decide) (hargs [name])).loosen
    | some space =>
      exact (reads_call h hs (by decide) (by decide) (by decide)
        (hargs [space, name])).loosen
  | unlessFalse s name v setter ih =>
    obtain ⟨hs, hv, _, hsetter⟩ := hx
    have hs := Template.lt_of_hasElement hs
    have hsemicolon : t.Utters ";" false := reads_closed (by decide) (by decide)
    have hguard := reads_guard hv (((reads_removal h hs name).append hsemicolon).append
      (reads_clearing h hs setter))
    rw [← String.append_assoc, ← String.append_assoc] at hguard
    exact hguard.append (ih hsetter hid)
  | reconcile d template anchor v g =>
    obtain ⟨hs, hv, hg⟩ := hx
    have hcall : isText ("yate." ++ call d) = true := by cases d <;> decide
    refine ((reads_text hcall).append_apart (reads_args (by decide) fun x hx => ?_)
      (startsApart_args _ _)).loosen
    simp only [List.mem_cons, List.not_mem_nil, or_false] at hx
    rcases hx with rfl | rfl | rfl | rfl | rfl
    · exact (reads_quote template).loosen
    · exact reads_node h (Template.lt_of_hasAnchor hs)
    · exact reads_var hv
    · exact (reads_text (by decide)).loosen
    · exact reads_group hg

/-! ## Routes -/

theorem isQuiet_number (i : Nat) : Lexeme.isQuiet (.word (toString i).toList) = true := by
  obtain ⟨c, ds, hds⟩ := List.exists_cons_of_ne_nil (Nat.toDigits_ne_nil (n := i) (b := 10))
  have hc : c.isDigit = true := isDigit_of_mem_toDigits (hds ▸ List.mem_cons_self)
  have hletter : ∀ x, x.isDigit = false → c ≠ x := by
    rintro x hx rfl
    rw [hc] at hx
    cases hx
  rw [toList_toString, hds]
  simp [Lexeme.isQuiet, isName, reserved, hletter]

theorem isWord_number (i : Nat) : IsWord (toString i) := by
  unfold IsWord
  rw [toList_toString]
  refine ⟨Nat.toDigits_ne_nil, fun c hc => ?_⟩
  rw [continuesIdentifier, isDigit_of_mem_toDigits hc, Bool.or_true]

/-- The computation of a number that there is, is called. -/
theorem reads_entry {i : Nat} (hi : i < t.computations.length) :
    t.Utters ("f[" ++ toString i ++ "]()") false := by
  have hopen : Lexes "f[" false [.word ['f'], .mark '['] := lexes_closed (by decide) (by decide)
  have hclose : Lexes "]()" false [.mark ']', .mark '(', .mark ')'] :=
    lexes_closed (by decide) (by decide)
  refine ⟨_, (hopen.append (isWord_number i).lexes).append_apart hclose (by decide), ?_⟩
  have hnumber : Calm t.identifiers t.computations.length
      [.mark '[', .word (toString i).toList, .mark ']', .mark '(', .mark ')'] := by
    refine calm_of_isQuiet ?_
    rw [List.all_cons, List.all_cons, isQuiet_number]
    rfl
  have hcall : Refers t.identifiers t.computations.length
      (.word ['f'] :: [.mark '[', .word (toString i).toList, .mark ']', .mark '(', .mark ')']) := by
    refine ⟨fun w hw hname => ?_, fun _ => .inr ⟨i, hi, [.mark '(', .mark ')'], rfl⟩,
      hnumber.calls⟩
    rcases List.mem_cons.mp hw with hw | hw
    · cases hw
      cases hname
    · exact hnumber.names w hw hname
  refine ⟨⟨hcall, fun hm => ?_, fun hm => ?_⟩, fun depth rest => ?_⟩
  · rcases List.mem_cons.mp hm with hm | hm
    · exact absurd hm (by decide)
    · exact hnumber.not_let hm
  · rcases List.mem_cons.mp hm with hm | hm
    · exact absurd hm (by decide)
    · exact hnumber.not_const hm
  · simp [keysFrom_succ, Lexeme.turn]

/-- Data is followed along a path. -/
theorem reads_way {ss : List String} (hss : ∀ s ∈ ss, isIdentifier s = true) : ∀ {x : String},
    t.Utters x true → t.Utters (x ++ String.join (ss.map ("?." ++ ·))) true := by
  induction ss with
  | nil =>
    intro x hx
    rwa [List.map_nil, String.join_nil, String.append_empty]
  | cons s ss ih =>
    intro x hx
    have hmark : t.Utters "?" false := reads_closed (by decide) (by decide)
    have hmember : t.Utters ("." ++ s) true :=
      (isWord_of_isIdentifier (hss s List.mem_cons_self)).reads_member
    have hstep : t.Utters ("?." ++ s) true := by
      have hdot : "?." ++ s = "?" ++ ("." ++ s) := by
        rw [← String.append_assoc]
        rfl
      rw [hdot]
      exact hmark.append hmember
    rw [List.map_cons, String.join_cons, ← String.append_assoc]
    exact ih (fun s' hs' => hss s' (List.mem_cons_of_mem _ hs'))
      (hx.append_apart hstep (startsApart_append (by decide) s))

theorem reads_binding {b : Var × List String} (hv : b.1 < t.varCount)
    (hid : ∀ s ∈ b.2, isIdentifier s = true) : t.Utters (binding b) true :=
  reads_way hid ((reads_var hv).append_apart (reads_text (by decide)) (by decide)).loosen

theorem reads_route (h : t.WellFormed) {r : Route} (hr : r ∈ t.routes)
    (hid : ∀ s ∈ r.spliced, isIdentifier s = true) :
    Reads (Rows t.identifiers t.computations.length [.literal (quoted r.key)])
      ("\t\t" ++ quote r.key ++ ":" ++ route r) false := by
  have hbody : t.Utters (";".intercalate
      (r.bindings.map binding ++ r.computations.map fun i => "f[" ++ toString i ++ "]()"))
        true := by
    refine reads_separated (by decide) fun x hx => ?_
    rcases List.mem_append.mp hx with hx | hx
    · obtain ⟨b, hb, rfl⟩ := List.mem_map.mp hx
      exact reads_binding (h.binding_lt r hr b hb) fun s hs =>
        hid s (List.mem_flatMap.mpr ⟨b, hb, hs⟩)
    · obtain ⟨i, hi, rfl⟩ := List.mem_map.mp hx
      exact (reads_entry (h.computation_lt r hr i hi)).loosen
  have hsemicolon : t.Utters ";" false := reads_closed (by decide) (by decide)
  obtain ⟨ls, hls, hbody⟩ := hbody.append_apart hsemicolon (by decide)
  have htabs : Lexes "\t\t" false [.mark '\t', .mark '\t'] := lexes_closed (by decide) (by decide)
  have hcolon : Lexes ":" false [.mark ':'] := lexes_closed (by decide) (by decide)
  have hfunction : Lexes "function(a)\x7b" false
      [.word "function".toList, .mark '(', .word ['a'], .mark ')', .mark '\x7b'] :=
    lexes_closed (by decide) (by decide)
  have hclose : Lexes "\x7d" false [.mark '\x7d'] := lexes_closed (by decide) (by decide)
  have hlexes := ((htabs.append (lexes_quote r.key)).append hcolon).append
    ((hfunction.append hls).append hclose)
  have hparams : Body t.identifiers t.computations.length [.word ['a']] :=
    body_of_isFlat (by decide) (by decide)
  have hroute : ∀ body : String, "function(a)\x7b" ++ (body ++ ";") ++ "\x7d" =
      "function(a)\x7b" ++ body ++ ";\x7d" := by
    intro body
    have hend : ";\x7d" = ";" ++ "\x7d" := by decide
    rw [hend]
    simp only [String.append_assoc]
  rw [hroute] at hlexes
  exact ⟨_, hlexes, Rows.field rfl (calm_of_isQuiet rfl) hparams hbody⟩

/-! ## Sections of a script -/

theorem reads_functions {xs : List Computation} (h : ∀ x ∈ xs, t.Utters (computation x) true) :
    Reads (Rows t.identifiers t.computations.length
      ((List.range xs.length).map fun i => .word (toString i).toList)) (functions xs) false := by
  suffices hall : ∀ k, List.Forall₂
      (fun x l => Reads (Rows t.identifiers t.computations.length [l]) x false)
      ((xs.zipIdx k).map fun c =>
        "\t\t" ++ toString c.2 ++ ":function()\x7b" ++ computation c.1 ++ "\x7d")
      ((List.range' k xs.length).map fun i => .word (toString i).toList) by
    rw [List.range_eq_range']
    exact reads_rows (hall 0)
  induction xs with
  | nil => exact fun _ => .nil
  | cons x xs ih =>
    intro k
    refine .cons ?_ (ih (fun y hy => h y (List.mem_cons_of_mem _ hy)) (k + 1))
    obtain ⟨ls, hls, hbody⟩ := h x List.mem_cons_self
    have htabs : Lexes "\t\t" false [.mark '\t', .mark '\t'] := lexes_closed (by decide) (by decide)
    have hfunction : Lexes ":function()\x7b" false
        [.mark ':', .word "function".toList, .mark '(', .mark ')', .mark '\x7b'] :=
      lexes_closed (by decide) (by decide)
    have hclose : Lexes "\x7d" false [.mark '\x7d'] := lexes_closed (by decide) (by decide)
    have hlexes := (((htabs.append (isWord_number k).lexes).append_apart hfunction
      (by decide)).append hls).append_apart hclose (by decide)
    have hkey : Calm t.identifiers t.computations.length [.word (toString k).toList] := by
      refine calm_of_isQuiet ?_
      rw [List.all_cons, isQuiet_number]
      rfl
    exact ⟨_, hlexes, Rows.field rfl hkey Additive.nil hbody⟩

theorem reads_updates (h : t.WellFormed)
    (hid : ∀ r ∈ t.routes, ∀ s ∈ r.spliced, isIdentifier s = true) :
    Reads (Rows t.identifiers t.computations.length
      (t.routes.map fun r => .literal (quoted r.key))) (updates t.routes) false := by
  refine reads_rows ?_
  rw [List.forall₂_map_left_iff, List.forall₂_map_right_iff, List.forall₂_same]
  exact fun r hr => reads_route h hr (hid r hr)

theorem reads_creation (h : t.WellFormed) : t.Utters (creation t) false := by
  refine reads_separated (by decide) fun x hx => ?_
  obtain ⟨l, hl, rfl⟩ := List.mem_map.mp hx
  have hline : t.Utters l false := by
    rcases List.mem_append.mp hl with hl | hl
    · obtain ⟨s, hs, rfl⟩ := List.mem_map.mp hl
      have hslot : s.slot ∈ List.range t.seeds.length := h.slots_eq ▸ List.mem_map_of_mem hs
      exact reads_seed h (List.mem_range.mp hslot)
    · obtain ⟨w, hw, rfl⟩ := List.mem_map.mp hl
      exact reads_wire h hw
  have htabs : t.Utters "\t\t\t" false := reads_closed (by decide) (by decide)
  exact (htabs.append hline).append (reads_closed (by decide) (by decide))

theorem reads_removals (h : t.WellFormed) :
    Reads (Calm t.identifiers t.computations.length) (removals t) false := by
  have hline : ∀ {a x b : String}, Reads (Calm t.identifiers t.computations.length) a false →
      t.Utters x true → isLine b = true → startsApart b = true →
      Reads (Calm t.identifiers t.computations.length) (a ++ x ++ b) false := fun ha hx hb hapart =>
    (ha.append (hx.imp fun _ => Body.toCalm)).append_apart (reads_line hb) hapart
  refine Reads.join fun x hx => ?_
  rcases List.mem_append.mp hx with hx | hx
  · obtain ⟨g, hg, rfl⟩ := List.mem_map.mp hx
    have hlt : g < t.groupCount := by
      obtain ⟨y, hy, hgroup⟩ := List.mem_filterMap.mp hg
      cases y with
      | reconcile d template anchor v g' =>
        have hg' : g' = g := by
          dsimp only at hgroup
          split at hgroup
          · exact Option.some.inj hgroup
          · cases hgroup
        exact hg' ▸ (h.fits _ hy).2.2
      | _ => cases hgroup
    exact hline (reads_line (by decide)) (reads_group hlt) (by decide) (by decide)
  · obtain ⟨s, hs, rfl⟩ := List.mem_map.mp hx
    rw [Template.rootSlots_eq] at hs
    have hnode := reads_node h (h.toSound.slot_lt hs)
    unfold removeNode
    refine hline (hline ((hline (hline (hline ?_ hnode ?_ ?_) hnode ?_ ?_) hnode ?_ ?_).append ?_)
      hnode ?_ ?_) hnode ?_ ?_
    all_goals first | exact reads_line (by decide) | decide

/-- Names are declared, each along with what it is initially. -/
theorem forall₂_items {α : Type} (as : List α) (f g : α → String) {value : List Lexeme}
    (hf : ∀ a ∈ as, (f a).toList ∈ t.identifiers)
    (hg : ∀ a, Lexes (f a) true [.word (f a).toList] →
      Lexes (g a) true (.word (f a).toList :: value))
    (hvalue : value.all Lexeme.isQuiet = true)
    (hskip : ∀ rest, declarators false (value ++ rest) = declarators false rest) :
    List.Forall₂ (fun x w => Reads (Items t.identifiers t.computations.length [w]) x true)
      (as.map g) (as.map fun a => (f a).toList) := by
  rw [List.forall₂_map_left_iff, List.forall₂_map_right_iff, List.forall₂_same]
  intro a ha
  have hname := t.isName_of_mem_identifiers (hf a ha)
  have hword : Calm t.identifiers t.computations.length [.word (f a).toList] :=
    calm_word (fun _ => hf a ha) (not_mem_reserved hname)
  exact ⟨_, hg a (isWord_of_isName hname).lexes, .single hword (calm_of_isQuiet hvalue) hskip⟩

theorem reads_declarations (t : Template) :
    Reads (Tells t.identifiers t.computations.length t.identifiers []) (declarations t) false := by
  have hblank : Lexes "=\"\"" false [.mark '=', .literal (quoted "")] := by
    have hequals : Lexes "=" false [.mark '='] := lexes_closed (by decide) (by decide)
    have hquote : "=\"\"" = "=" ++ quote "" := by decide
    rw [hquote]
    exact hequals.append (lexes_quote "")
  have hlist : Lexes "=[]" false [.mark '=', .mark '[', .mark ']'] :=
    lexes_closed (by decide) (by decide)
  have hnodes := forall₂_items t.seeds (fun s => node s.slot) (fun s => node s.slot)
    (fun _ => t.node_mem_identifiers) (fun _ h => h) rfl fun _ => rfl
  have hvars := forall₂_items (List.range t.varCount) var (fun v => var v ++ "=\"\"")
    (fun _ hv => t.var_mem_identifiers (List.mem_range.mp hv))
    (fun _ h => (h.append_apart hblank (by decide)).loosen) rfl fun _ => rfl
  have hgroups := forall₂_items (List.range t.groupCount) group (fun g => group g ++ "=[]")
    (fun _ hg => t.group_mem_identifiers (List.mem_range.mp hg))
    (fun _ h => (h.append_apart hlist (by decide)).loosen) rfl fun _ => rfl
  have hall := List.rel_append (List.rel_append hnodes hvars) hgroups
  beta_reduce at hall
  unfold declarations
  dsimp only
  split
  · rename_i hempty
    rw [hempty] at hall
    have hnone : t.identifiers = [] := List.forall₂_nil_left_iff.mp hall
    rw [hnone]
    exact reads_empty.imp fun _ => Calm.tells
  · rename_i hne
    have hgap : Lexes ", " false [.mark ',', .mark ' '] := lexes_closed (by decide) (by decide)
    obtain ⟨ls, hls, hitems⟩ := reads_intercalate hgap (by decide) Items.append hne hall
    have hlet : Lexes "\tlet " false [.mark '\t', .word "let".toList, .mark ' '] :=
      lexes_closed (by decide) (by decide)
    have hend : Lexes ";\n" false [.mark ';', .mark '\n'] := lexes_closed (by decide) (by decide)
    exact ⟨_, (hlet.append hls).append_apart hend (by decide), hitems.tells⟩

/-- The fragment is constant, and no table. -/
theorem reads_root (D : List (List Char)) (n : Nat) :
    Reads (Tells D n [] []) "\tconst root = document.createDocumentFragment();\n" false := by
  let value : List Lexeme := [.mark ' ', .word "root".toList, .mark ' ', .mark '=', .mark ' ',
    .word "document".toList, .member "createDocumentFragment".toList, .mark '(',
    .mark ')', .mark ';', .mark '\n']
  have hlexes : Lexes "\tconst root = document.createDocumentFragment();\n" false
      ([.mark '\t', .word "const".toList] ++ value) := lexes_closed (by decide) (by decide)
  have hvalue : Calm D n value := calm_of_isQuiet (by decide)
  refine ⟨_, hlexes, ⟨fun w hw hname => ?_, calls_of_not_mem (by decide)⟩,
    fun rest => declared_append (by decide), fun name rest => ?_⟩
  · rcases List.mem_append.mp hw with hw | hw
    · have hconst : w = "const".toList := by simpa using hw
      rw [hconst] at hname
      cases hname
    · exact hvalue.names w hw hname
  · have htab : entries name ([.mark '\t'] ++ (.word "const".toList :: (value ++ rest))) =
        entries name (.word "const".toList :: (value ++ rest)) := entries_append (by decide) name
    have hstart : ¬ (tableStart name).isPrefixOf (.word "const".toList :: (value ++ rest)) =
        true := by
      simp [tableStart, value]
    exact htab.trans ((if_neg hstart).trans (entries_append hvalue.not_const name))

theorem reads_mounted (D : List (List Char)) (n : Nat) :
    Reads (Tells D n ["mounted".toList] []) "\tlet mounted = false;\n" false := by
  have hitem : Items D n ["mounted".toList]
      [.word "mounted".toList, .mark ' ', .mark '=', .mark ' ', .word "false".toList] :=
    .single (calm_of_isQuiet (by decide)) (calm_of_isQuiet (by decide)) fun _ => rfl
  exact ⟨_, lexes_closed (by decide) (by decide), hitem.tells⟩

/-- What a script declares, and the tables that it has. -/
theorem reads_script (h : t.WellFormed) (hid : ∀ s ∈ t.spliced, isIdentifier s = true) :
    Reads (Tells t.identifiers t.computations.length (t.identifiers ++ ["mounted".toList])
      [("f", (List.range t.computations.length).map fun i => .word (toString i).toList),
        ("u", t.routes.map fun r => .literal (quoted r.key))]) t.script false := by
  have hfunctions := reads_functions fun x hx => reads_computation h (h.fits x hx) fun s hs =>
    hid s (List.mem_append_left _ (List.mem_flatMap.mpr ⟨x, hx, hs⟩))
  have hupdates := reads_updates h fun r hr s hs =>
    hid s (List.mem_append_right _ (List.mem_flatMap.mpr ⟨r, hr, hs⟩))
  have hcreation := (reads_creation h).imp fun _ => Body.toCalm
  have hremovals := reads_removals h
  have hhead : Reads (Tells t.identifiers t.computations.length [] [])
      ("function(pool) \x7b\n" ++ "\t'use strict';\n") false :=
    ((reads_line (by decide)).append (reads_line (by decide))).imp fun _ => Calm.tells
  have hf : Lexes "\tconst f = \x7b\n" false (.mark '\t' :: (tableStart "f" ++ [.mark '\n'])) :=
    lexes_closed (by decide) (by decide)
  have hu : Lexes "\tconst u = \x7b\n" false (.mark '\t' :: (tableStart "u" ++ [.mark '\n'])) :=
    lexes_closed (by decide) (by decide)
  have htables := ((hhead.append_tells (reads_declarations t)).append_table hfunctions hf
    (by decide)
    (by decide) (by decide)).append_table hupdates hu (by decide) (by decide) (by decide)
  have hmounted := (htables.append_tells (reads_root _ _)).append_tells (reads_mounted _ _)
  simp only [List.nil_append, List.append_nil, List.singleton_append] at hmounted
  unfold Template.script
  -- from the end of the script: the lines that all templates have, and the sections between
  repeat with_reducible refine Reads.append_calm ?_ (reads_line (by decide))
  refine Reads.append_calm ?_ hremovals
  repeat with_reducible refine Reads.append_calm ?_ (reads_line (by decide))
  refine Reads.append_calm ?_ hcreation
  repeat with_reducible refine Reads.append_calm ?_ (reads_line (by decide))
  with_reducible exact hmounted

end Script

/-! ## Compiled templates -/

/-- No two routes of an index have one key. -/
theorem Binding.Index.Accounts.nodup_keys {α : Type} {ix : Index α} {bound met : List Path}
    {readings : List (List Path)} (h : Accounts bound readings met ix) :
    (ix.routes.map Route.key).Nodup := by
  obtain ⟨keys, _, hnodup, _, hroutes⟩ := h.exists_keys
  have hkeys : ix.routes.map Route.key = keys.map dotted := by
    rw [← List.forall₂_eq_eq_eq, List.forall₂_map_left_iff, List.forall₂_map_right_iff]
    exact hroutes.flip.imp fun _ _ hr => hr.key_eq
  rwa [hkeys]

theorem Text.quoted_injective : Function.Injective quoted := by
  intro s t h
  have hquote : quote s = quote t := by
    rw [← String.toList_inj, toList_quote, toList_quote, h]
  have hread := Json.read?_quote s
  rw [hquote, Json.read?_quote] at hread
  cases hread
  rfl

theorem Workshop.nodup_keys_compileAll (calls : List (Node × String)) {t : Template}
    (ht : t ∈ (compileAll calls {}).catalog.templates) : (t.routes.map Route.key).Nodup := by
  obtain ⟨d, hd, heq⟩ := Draft.kept_spliceable.of_compileAll calls t ht
  obtain ⟨_, _, _, haccounts⟩ := hd.accounts
  rw [heq]
  exact haccounts.nodup_keys

/-- In the script of a compiled template no name is declared twice; every name of a node, a
variable or a group that stands on its own is declared; whatever entry of the table of
computations is called, is there; and the table of routes has the keys of the routes in
order, each once. -/
theorem Workshop.references_declared (calls : List (Node × String)) {t : Template}
    (ht : t ∈ (compileAll calls {}).catalog.templates) :
    let ls := Script.lexemes t.script
    (Script.declared ls).Nodup ∧
      (∀ w, .word w ∈ ls → Script.isName w = true → w ∈ Script.declared ls) ∧
      (∀ before after, ls = before ++ .word ['f'] :: .mark '[' :: after →
        ∃ i rest, after = .word i :: .mark ']' :: rest ∧ .word i ∈ Script.entries "f" ls) ∧
      Script.entries "u" ls = t.routes.map (fun r => .literal (quoted r.key)) ∧
      (Script.entries "u" ls).Nodup := by
  intro ls
  have hwell := (built_compileAll calls).wellFormed ht
    ((gains_compileAll calls {}).forall_mem (fun _ h => absurd h List.not_mem_nil) t ht)
  have hid : ∀ s ∈ t.spliced, isIdentifier s = true := fun s hs =>
    isIdentifier_of_spliced calls (List.mem_flatMap.mpr ⟨t, ht, hs⟩)
  obtain ⟨ls', hlexes, htells⟩ := Script.reads_script hwell hid
  have hls : ls = ls' := hlexes.eq
  clear_value ls
  subst hls
  have hdeclared : Script.declared ls = t.identifiers ++ ["mounted".toList] := by
    have h := htells.declared_eq []
    rwa [List.append_nil, Script.declared, List.append_nil] at h
  have hfunctions : Script.entries "f" ls =
      (List.range t.computations.length).map fun i => .word (toString i).toList := by
    have h := htells.entries_eq "f" []
    rwa [List.append_nil, List.lookup_cons_self] at h
  have hupdates : Script.entries "u" ls = t.routes.map (fun r => .literal (quoted r.key)) := by
    have h := htells.entries_eq "u" []
    have hne : ("u" == "f") = false := by decide
    rwa [List.append_nil, List.lookup_cons, hne, List.lookup_cons_self] at h
  refine ⟨?_, fun w hw hname => ?_, fun before after hsplit => ?_, hupdates, ?_⟩
  · rw [hdeclared]
    refine hwell.nodup_identifiers.append (List.nodup_singleton _) fun w hw hm => ?_
    have hname := t.isName_of_mem_identifiers hw
    rw [List.mem_singleton.mp hm] at hname
    cases hname
  · rw [hdeclared]
    exact List.mem_append_left _ (htells.names w hw hname)
  · have hcalls := htells.calls
    rw [hsplit] at hcalls
    rcases hcalls.of_append.1 rfl with hblank | ⟨i, hi, rest, hrest⟩
    · cases hblank
    · cases hrest
      refine ⟨_, rest, rfl, ?_⟩
      rw [hfunctions]
      exact List.mem_map.mpr ⟨i, List.mem_range.mpr hi, rfl⟩
  · rw [hupdates]
    have hkeys := (nodup_keys_compileAll calls ht).map
      fun a b (hab : Script.Lexeme.literal (quoted a) = .literal (quoted b)) =>
        Text.quoted_injective (Script.Lexeme.literal.inj hab)
    rwa [List.map_map] at hkeys

/-- Paths whose segments look like names and keywords, within and without a directive. -/
theorem Workshop.references_declared_members :
    let source := "<ul title=\"\x7b\x7bc9.n7\x7d\x7d\">" ++
      "<li for=\"let\" if=\"f\">a \x7b\x7bx.v5\x7d\x7d</li></ul>"
    ∃ t ∈ (compileAll [(treeOf source, "list")] {}).catalog.templates, t.name = "list" ∧
      let ls := Script.lexemes t.script
      (Script.declared ls).Nodup ∧
        (∀ w, .word w ∈ ls → Script.isName w = true → w ∈ Script.declared ls) ∧
        (∀ before after, ls = before ++ .word ['f'] :: .mark '[' :: after →
          ∃ i rest, after = .word i :: .mark ']' :: rest ∧ .word i ∈ Script.entries "f" ls) ∧
        Script.entries "u" ls = ["c9", "c9.n7", "let"].map (fun key => .literal key.toList) ∧
        (Script.entries "u" ls).Nodup := by
  intro source
  have hkeys : ((compileAll [(treeOf source, "list")] {}).catalog.get? "list").map
      (fun t => t.routes.map fun r => quoted r.key) =
      some (["c9", "c9.n7", "let"].map String.toList) := by decide +kernel
  obtain ⟨t, ht, hquoted⟩ := Option.map_eq_some_iff.mp hkeys
  have hmem := List.mem_of_find?_eq_some ht
  have hname : t.name = "list" := by simpa using List.find?_some ht
  obtain ⟨hnodup, hnames, hcalls, hentries, hdistinct⟩ := references_declared _ hmem
  refine ⟨t, hmem, hname, hnodup, hnames, hcalls, hentries.trans ?_, hdistinct⟩
  have hliterals := congrArg (List.map Script.Lexeme.literal) hquoted
  rwa [List.map_map, List.map_map] at hliterals

end Stencil
