import Stencil.Proofs.Script.Lexemes

/-! Declarations and tables of scripts. From the lexemes of a script the names that it
declares and the keys of its constant objects are read off, and what sections of a script
tell of these is put together. -/
namespace Stencil.Script
open Text

def isHexDigit (c : Char) : Bool := c.isDigit || "abcdefABCDEF".toList.contains c

/-- The form of the names of nodes, variables and groups. -/
def isName : List Char → Bool
  | [] => false
  | c :: ds => !ds.isEmpty &&
    (c == 'n' && ds.all isHexDigit || (c == 'v' || c == 'c') && ds.all Char.isDigit)

/-- The names up to the end of a statement that stand where a name is due: at first, and
after each comma. -/
def declarators : Bool → List Lexeme → List (List Char)
  | _, [] => []
  | due, .word w :: ls => if due then w :: declarators false ls else declarators false ls
  | due, .mark c :: ls => if c = ';' then [] else declarators (due || c == ',') ls
  | due, _ :: ls => declarators due ls

/-- The names that are declared as variables. -/
def declared : List Lexeme → List (List Char)
  | [] => []
  | .word w :: ls => if w = "let".toList then declarators true ls ++ declared ls else declared ls
  | _ :: ls => declared ls

namespace Lexeme

/-- How many brackets are open after the lexeme; none when it closes one that was not opened. -/
def turn (depth : Nat) : Lexeme → Option Nat
  | .mark c =>
    if c ∈ ['(', '[', '\x7b'] then some (depth + 1)
    else if c ∈ [')', ']', '\x7d'] then (if depth = 0 then none else some (depth - 1))
    else some depth
  | _ => some depth

def isKey : Lexeme → Bool
  | .word _ => true
  | .literal _ => true
  | _ => false

end Lexeme

/-- The keys of an object from within its braces: what stands before a colon and in no
further bracket. -/
def keysFrom : Nat → List Lexeme → List Lexeme
  | _, [] => []
  | depth, l :: ls =>
    if depth = 0 ∧ l.isKey = true ∧ ls.head? = some (.mark ':') then l :: keysFrom depth ls
    else match l.turn depth with
      | none => []
      | some depth => keysFrom depth ls

/-- How the declaration of a constant object begins. -/
def tableStart (name : String) : List Lexeme :=
  [.word "const".toList, .mark ' ', .word name.toList, .mark ' ', .mark '=',
    .mark ' ', .mark '\x7b']

/-- The keys of the constant object of that name. -/
def entries (name : String) : List Lexeme → List Lexeme
  | [] => []
  | l :: ls =>
    if (tableStart name).isPrefixOf (l :: ls) then keysFrom 0 (ls.drop 6) else entries name ls

/-- Of two declarations one has values with commas and brackets, and of two objects one has
an object within. -/
example :
    let ls := lexemes ("let n0, v0=\"let x\", c0=[]; const g = \x7ba:\x7bb:1\x7d\x7d;" ++
      " const f = \x7b0:h(a, \x7bc:2\x7d),\"d\":3\x7d; let e = a.let;")
    declared ls = [['n', '0'], ['v', '0'], ['c', '0'], ['e']] ∧
      entries "f" ls = [.word ['0'], .literal ['d']] := by
  decide +kernel

/-! ## Lexemes of a script -/

/-- Wherever the table of computations is mentioned, it is declared or an entry is called
that is below `n`. -/
def Calls (n : Nat) : List Lexeme → Prop
  | [] => True
  | l :: ls => (l = .word ['f'] → ls.head? = some (.mark ' ') ∨
      ∃ i < n, [.mark '[', .word (toString i).toList, .mark ']'] <+: ls) ∧ Calls n ls

/-- All names are among those given, and all calls are below `n`. -/
structure Refers (D : List (List Char)) (n : Nat) (ls : List Lexeme) : Prop where
  names : ∀ w, .word w ∈ ls → isName w = true → w ∈ D
  calls : Calls n ls

/-- Nothing is declared. -/
structure Calm (D : List (List Char)) (n : Nat) (ls : List Lexeme) : Prop
    extends Refers D n ls where
  not_let : .word "let".toList ∉ ls
  not_const : .word "const".toList ∉ ls

/-- What can stand in the braces of a function: nothing is declared, and all brackets that
open are closed. -/
structure Body (D : List (List Char)) (n : Nat) (ls : List Lexeme) : Prop extends Calm D n ls where
  inner : ∀ depth rest, keysFrom (depth + 1) (ls ++ rest) = keysFrom (depth + 1) rest

/-- The fields of an object with these keys. -/
structure Rows (D : List (List Char)) (n : Nat) (ks ls : List Lexeme) : Prop
    extends Calm D n ls where
  keys_eq : ∀ rest, keysFrom 0 (ls ++ rest) = ks ++ keysFrom 0 rest

/-- The middle of a declaration of these names. -/
structure Items (D : List (List Char)) (n : Nat) (ws : List (List Char)) (ls : List Lexeme) : Prop
    extends Calm D n ls where
  names_eq : ∀ rest, declarators true (ls ++ rest) = ws ++ declarators false rest

/-- A section of a script that declares these names and has these tables with their keys. -/
structure Tells (D : List (List Char)) (n : Nat) (ws : List (List Char))
    (tables : List (String × List Lexeme)) (ls : List Lexeme) : Prop extends Refers D n ls where
  declared_eq : ∀ rest, declared (ls ++ rest) = ws ++ declared rest
  entries_eq : ∀ name rest, entries name (ls ++ rest) =
    (tables.lookup name).getD (entries name rest)

section Sections

variable {D : List (List Char)} {n : Nat} {ls ms ks ks' : List Lexeme} {ws ws' : List (List Char)}

theorem calls_of_not_mem (h : .word ['f'] ∉ ls) : Calls n ls := by
  induction ls with
  | nil => trivial
  | cons l ls ih =>
    rw [List.mem_cons, not_or] at h
    exact ⟨fun hl => absurd hl.symm h.1, ih h.2⟩

theorem Calls.append (h : Calls n ls) (h' : Calls n ms) : Calls n (ls ++ ms) := by
  induction ls with
  | nil => exact h'
  | cons l ls ih =>
    refine ⟨fun hl => ?_, ih h.2⟩
    rcases h.1 hl with hspace | ⟨i, hi, hcall⟩
    · cases ls with
      | nil => cases hspace
      | cons k ls => exact .inl hspace
    · exact .inr ⟨i, hi, hcall.trans (List.prefix_append ls ms)⟩

theorem Calls.of_append (h : Calls n (ls ++ ms)) : Calls n ms := by
  induction ls with
  | nil => exact h
  | cons l ls ih => exact ih h.2

theorem Refers.append (h : Refers D n ls) (h' : Refers D n ms) : Refers D n (ls ++ ms) where
  names w hw := (List.mem_append.mp hw).elim (h.names w) (h'.names w)
  calls := h.calls.append h'.calls

theorem Calm.append (h : Calm D n ls) (h' : Calm D n ms) : Calm D n (ls ++ ms) where
  toRefers := h.toRefers.append h'.toRefers
  not_let hm := (List.mem_append.mp hm).elim h.not_let h'.not_let
  not_const hm := (List.mem_append.mp hm).elim h.not_const h'.not_const

instance : Additive (Calm D n) where
  nil := ⟨⟨fun _ hw => absurd hw List.not_mem_nil, trivial⟩, List.not_mem_nil, List.not_mem_nil⟩
  append := Calm.append

instance : Additive (Body D n) where
  nil := ⟨Additive.nil, fun _ _ => rfl⟩
  append h h' := ⟨h.toCalm.append h'.toCalm, fun depth rest => by
    rw [List.append_assoc, h.inner, h'.inner]⟩

theorem Rows.append (h : Rows D n ks ls) (h' : Rows D n ks' ms) :
    Rows D n (ks ++ ks') (ls ++ ms) where
  toCalm := h.toCalm.append h'.toCalm
  keys_eq rest := by rw [List.append_assoc, h.keys_eq, h'.keys_eq, List.append_assoc]

theorem Tells.append {tables tables' : List (String × List Lexeme)} (h : Tells D n ws tables ls)
    (h' : Tells D n ws' tables' ms) : Tells D n (ws ++ ws') (tables ++ tables') (ls ++ ms) where
  toRefers := h.toRefers.append h'.toRefers
  declared_eq rest := by rw [List.append_assoc, h.declared_eq, h'.declared_eq, List.append_assoc]
  entries_eq name rest := by
    rw [List.append_assoc, h.entries_eq, h'.entries_eq, List.lookup_append]
    cases tables.lookup name <;> rfl

theorem declared_append (h : .word "let".toList ∉ ls) : declared (ls ++ ms) = declared ms := by
  induction ls with
  | nil => rfl
  | cons l ls ih =>
    rw [List.mem_cons, not_or] at h
    cases l with
    | word w =>
      have hw : w ≠ "let".toList := fun he => h.1 (he ▸ rfl)
      rw [List.cons_append, declared, if_neg hw, ih h.2]
    | _ => exact ih h.2

theorem entries_append (h : .word "const".toList ∉ ls) (name : String) :
    entries name (ls ++ ms) = entries name ms := by
  induction ls with
  | nil => rfl
  | cons l ls ih =>
    rw [List.mem_cons, not_or] at h
    have hstart : ¬ (tableStart name).isPrefixOf (l :: (ls ++ ms)) = true := by
      intro hp
      rw [tableStart, List.isPrefixOf_cons_cons, Bool.and_eq_true, beq_iff_eq] at hp
      exact h.1 hp.1
    rw [List.cons_append, entries, if_neg hstart, ih h.2]

theorem Calm.tells (h : Calm D n ls) : Tells D n [] [] ls where
  toRefers := h.toRefers
  declared_eq _ := declared_append h.not_let
  entries_eq name _ := entries_append h.not_const name

/-! ## Texts that all scripts have -/

/-- Words that scripts treat in a way of their own. -/
def reserved : List (List Char) := ["f".toList, "let".toList, "const".toList]

/-- Neither a name nor reserved. -/
def Lexeme.isQuiet : Lexeme → Bool
  | .word w => !isName w && !reserved.contains w
  | _ => true

/-- No bracket. -/
def Lexeme.isFlat (l : Lexeme) : Bool := l.turn 0 == some 0

theorem calm_of_isQuiet (h : ls.all Lexeme.isQuiet = true) : Calm D n ls := by
  rw [List.all_eq_true] at h
  have hword : ∀ w, .word w ∈ ls → isName w = false ∧ w ∉ reserved := by
    intro w hw
    simpa [Lexeme.isQuiet] using h _ hw
  refine ⟨⟨fun w hw hname => ?_, calls_of_not_mem fun hf => ?_⟩, fun hl => ?_, fun hc => ?_⟩
  · rw [(hword w hw).1] at hname
    cases hname
  · exact absurd (hword _ hf).2 (by decide)
  · exact absurd (hword _ hl).2 (by decide)
  · exact absurd (hword _ hc).2 (by decide)

theorem turn_of_isFlat {l : Lexeme} (h : l.isFlat = true) (depth : Nat) :
    l.turn depth = some depth := by
  unfold Lexeme.isFlat at h
  cases l with
  | mark c =>
    unfold Lexeme.turn at h ⊢
    dsimp only at h ⊢
    split at h
    · cases h
    · split at h
      · cases h
      · rw [if_neg ‹_›, if_neg ‹_›]
  | _ => rfl

theorem keysFrom_succ (depth : Nat) (l : Lexeme) (ls : List Lexeme) :
    keysFrom (depth + 1) (l :: ls) = match l.turn (depth + 1) with
      | none => []
      | some depth => keysFrom depth ls := by
  rw [keysFrom, if_neg fun h => absurd h.1 (Nat.succ_ne_zero depth)]

/-- Outside of brackets a single character is passed over. -/
theorem keysFrom_mark {c : Char} (h : Lexeme.isFlat (.mark c) = true) (ls : List Lexeme) :
    keysFrom 0 (.mark c :: ls) = keysFrom 0 ls := by
  have hkey : ¬ (0 = 0 ∧ Lexeme.isKey (.mark c) = true ∧ ls.head? = some (.mark ':')) :=
    fun hk => Bool.false_ne_true hk.2.1
  rw [keysFrom, if_neg hkey, turn_of_isFlat h]

theorem inner_of_isFlat (h : ls.all Lexeme.isFlat = true) (depth : Nat) (rest : List Lexeme) :
    keysFrom (depth + 1) (ls ++ rest) = keysFrom (depth + 1) rest := by
  induction ls with
  | nil => rfl
  | cons l ls ih =>
    rw [List.all_cons, Bool.and_eq_true] at h
    rw [List.cons_append, keysFrom_succ, turn_of_isFlat h.1]
    exact ih h.2

theorem body_of_isFlat (h : ls.all Lexeme.isQuiet = true) (hflat : ls.all Lexeme.isFlat = true) :
    Body D n ls := ⟨calm_of_isQuiet h, inner_of_isFlat hflat⟩

/-- A fixed text without brackets that can stand in a function. -/
def isText (x : String) : Bool :=
  decide (Plain x) && (lexemes x).all Lexeme.isQuiet && (lexemes x).all Lexeme.isFlat

/-- A fixed text that can stand between others. -/
def isSeparator (x : String) : Bool := isText x && !endsOpen x && startsApart x

/-- A fixed line that declares nothing. -/
def isLine (x : String) : Bool :=
  decide (Plain x) && (lexemes x).all Lexeme.isQuiet && !endsOpen x

theorem reads_text {x : String} (h : isText x = true) : Reads (Body D n) x (endsOpen x) := by
  unfold isText at h
  rw [Bool.and_eq_true, Bool.and_eq_true, decide_eq_true_eq] at h
  exact ⟨_, h.1.1.lexes, body_of_isFlat h.1.2 h.2⟩

theorem reads_closed {x : String} (h : isText x = true) (hend : endsOpen x = false) :
    Reads (Body D n) x false := hend ▸ reads_text h

theorem reads_separated {sep : String} (hsep : isSeparator sep = true) {xs : List String} {o : Bool}
    (h : ∀ x ∈ xs, Reads (Body D n) x o) : Reads (Body D n) (sep.intercalate xs) o := by
  unfold isSeparator at hsep
  rw [Bool.and_eq_true, Bool.and_eq_true, Bool.not_eq_true'] at hsep
  exact (reads_closed hsep.1.1 hsep.1.2).intercalate hsep.2 h

theorem reads_line {x : String} (h : isLine x = true) : Reads (Calm D n) x false := by
  unfold isLine at h
  rw [Bool.and_eq_true, Bool.and_eq_true, decide_eq_true_eq, Bool.not_eq_true'] at h
  exact ⟨_, lexes_closed h.1.1 h.2, calm_of_isQuiet h.1.2⟩

theorem reads_quote (p : String) : Reads (Body D n) (quote p) false :=
  ⟨_, lexes_quote p, body_of_isFlat rfl rfl⟩

/-- A word that is no name, or a name that is among those given. -/
theorem calm_word {w : List Char} (hname : isName w = true → w ∈ D) (hreserved : w ∉ reserved) :
    Calm D n [.word w] := by
  have hne : ∀ v ∈ reserved, Lexeme.word v ∉ [.word w] := by
    intro v hv hm
    cases List.mem_singleton.mp hm
    exact hreserved hv
  refine ⟨⟨fun v hv => ?_, calls_of_not_mem ?_⟩, ?_, ?_⟩
  · cases List.mem_singleton.mp hv
    exact hname
  · exact hne _ (by decide)
  · exact hne _ (by decide)
  · exact hne _ (by decide)

theorem IsWord.reads {x : String} (h : IsWord x) (hname : isName x.toList = true → x.toList ∈ D)
    (hreserved : x.toList ∉ reserved) : Reads (Body D n) x true :=
  ⟨_, h.lexes, calm_word hname hreserved, fun _ _ => rfl⟩

theorem IsWord.reads_member {x : String} (h : IsWord x) : Reads (Body D n) ("." ++ x) true :=
  ⟨_, h.lexes_member, body_of_isFlat rfl rfl⟩

/-! ## Brackets -/

theorem Body.enclose (h : Body D n ls) : Body D n (.mark '(' :: (ls ++ [.mark ')'])) where
  toCalm := by
    have hopen : Calm D n [.mark '('] := calm_of_isQuiet rfl
    exact hopen.append (h.toCalm.append (calm_of_isQuiet rfl))
  inner depth rest := by
    have hopen : Lexeme.turn (depth + 1) (.mark '(') = some (depth + 2) := rfl
    have hclose : Lexeme.turn (depth + 2) (.mark ')') = some (depth + 1) := rfl
    rw [List.cons_append, List.append_assoc, keysFrom_succ, hopen]
    dsimp only
    rw [h.inner, List.singleton_append, keysFrom_succ, hclose]

theorem reads_args {sep : String} (hsep : isSeparator sep = true) {xs : List String}
    (h : ∀ x ∈ xs, Reads (Body D n) x true) : Reads (Body D n) (args sep xs) false := by
  obtain ⟨ls, hls, hbody⟩ := reads_separated hsep h
  have hopen : Lexes "(" false [.mark '('] := lexes_closed (by decide) (by decide)
  have hclose : Lexes ")" false [.mark ')'] := lexes_closed (by decide) (by decide)
  exact ⟨_, (hopen.append hls).append_apart hclose (by decide), hbody.enclose⟩

theorem startsApart_args (sep : String) (xs : List String) : startsApart (args sep xs) = true :=
  startsApart_append (startsApart_append (by decide) _) _

/-- A statement that returns from the function on a condition. -/
theorem Body.guard {condition : List Lexeme} (hcondition : Body D n condition) (h : Body D n ls) :
    Body D n ([.word "if".toList, .mark ' ', .mark '('] ++ condition ++
      [.mark '=', .mark '=', .mark '=', .word "false".toList, .mark ')', .mark ' ',
        .mark '\x7b'] ++ ls ++
      [.word "return".toList, .mark ';', .mark '\x7d']) where
  toCalm := ((((calm_of_isQuiet (by decide)).append hcondition.toCalm).append
    (calm_of_isQuiet (by decide))).append h.toCalm).append (calm_of_isQuiet (by decide))
  inner depth rest := by
    simp [keysFrom_succ, Lexeme.turn, hcondition.inner, h.inner]

/-! ## Tables -/

/-- A field with a function as its value. -/
theorem Rows.field {k : Lexeme} (hkey : k.isKey = true) (hk : Calm D n [k]) {params : List Lexeme}
    (hparams : Body D n params) (h : Body D n ls) :
    Rows D n [k] (.mark '\t' :: .mark '\t' :: k :: .mark ':' ::
      .word "function".toList :: .mark '(' ::
      (params ++ .mark ')' :: .mark '\x7b' :: (ls ++ [.mark '\x7d']))) where
  toCalm := by
    have hfunction : Calm D n [.mark ':', .word "function".toList, .mark '('] :=
      calm_of_isQuiet (by decide)
    have htabs : Calm D n [.mark '\t', .mark '\t'] := calm_of_isQuiet (by decide)
    have hbrace : Calm D n [.mark ')', .mark '\x7b'] := calm_of_isQuiet (by decide)
    exact htabs.append (hk.append (hfunction.append (hparams.toCalm.append
      (hbrace.append (h.toCalm.append (calm_of_isQuiet (by decide)))))))
  keys_eq rest := by
    have hfield : ∀ ms, keysFrom 0 (k :: .mark ':' :: ms) = k :: keysFrom 0 (.mark ':' :: ms) := by
      intro ms
      rw [keysFrom, if_pos ⟨rfl, hkey, rfl⟩]
    have htab := @keysFrom_mark '\t' (by decide)
    -- the parameters stand in one bracket, and after them the body does
    have hparams' := hparams.inner 0 (.mark ')' :: .mark '\x7b' :: (ls ++ .mark '\x7d' :: rest))
    have hbody := h.inner 0 (.mark '\x7d' :: rest)
    simp only [Nat.zero_add] at hparams' hbody
    simp only [List.cons_append, List.append_assoc, List.nil_append, htab, hfield]
    simp [keysFrom, Lexeme.isKey, Lexeme.turn, hparams', hbody]

theorem reads_rows {xs : List String}
    (h : List.Forall₂ (fun x k => Reads (Rows D n [k]) x false) xs ks) :
    Reads (Rows D n ks) (",\n".intercalate xs) false := by
  cases xs with
  | nil =>
    cases h
    exact ⟨[], lexes_empty, Additive.nil, fun _ => rfl⟩
  | cons x xs =>
    have hgap : Lexes ",\n" false [.mark ',', .mark '\n'] := lexes_closed (by decide) (by decide)
    have hrows : Rows D n [] [.mark ',', .mark '\n'] :=
      ⟨calm_of_isQuiet (by decide), fun rest => (keysFrom_mark (by decide) _).trans
        (keysFrom_mark (by decide) rest)⟩
    exact reads_intercalate hgap (by decide) (fun hls hms => hls.append (hrows.append hms))
      (List.cons_ne_nil x xs) h

theorem entries_tableStart (name : String) (ls : List Lexeme) :
    entries name (tableStart name ++ ls) = keysFrom 0 ls := by
  have hstart : (tableStart name).isPrefixOf (tableStart name ++ ls) = true :=
    List.isPrefixOf_iff_prefix.mpr (List.prefix_append _ ls)
  exact if_pos hstart

theorem entries_tableStart_of_ne {name name' : String} (h : name' ≠ name)
    (hconst : name.toList ≠ "const".toList) (ls : List Lexeme) :
    entries name' (tableStart name ++ ls) = entries name' ls := by
  have hstart : ¬ (tableStart name').isPrefixOf (tableStart name ++ ls) = true := by
    intro hp
    have hname : name'.toList = name.toList := by
      simp only [tableStart, List.cons_append, List.isPrefixOf_cons_cons, Bool.and_eq_true,
        beq_iff_eq, Lexeme.word.injEq] at hp
      exact hp.2.2.1
    exact h (String.toList_inj.mp hname)
  have hrest : .word "const".toList ∉ (tableStart name).tail := by
    simpa [tableStart] using Ne.symm hconst
  exact (if_neg hstart).trans (entries_append hrest name')

/-- The lines after the fields of an object. -/
def tableEnd : List Lexeme := [.mark '\n', .mark '\t', .mark '\x7d', .mark ';', .mark '\n']

theorem Rows.entries_eq (h : Rows D n ks ls) {name : String} (hconst : name.toList ≠ "const".toList)
    (name' : String) (rest : List Lexeme) :
    entries name' (tableStart name ++ (.mark '\n' :: (ls ++ (tableEnd ++ rest)))) =
      ([(name, ks)].lookup name').getD (entries name' rest) := by
  by_cases heq : name' = name
  · subst heq
    have hend : keysFrom 0 (tableEnd ++ rest) = [] := by
      simp [tableEnd, keysFrom, Lexeme.isKey, Lexeme.turn]
    rw [entries_tableStart, keysFrom_mark (by decide), h.keys_eq, hend, List.append_nil,
      List.lookup_cons_self]
    rfl
  · have hlookup : List.lookup name' [(name, ks)] = none := by
      rw [List.lookup_cons, beq_false_of_ne heq]
      rfl
    have hquiet : .word "const".toList ∉ .mark '\n' :: (ls ++ tableEnd) := by
      intro hm
      rcases List.mem_append.mp ((List.mem_cons.mp hm).resolve_left (by decide)) with hm | hm
      · exact h.not_const hm
      · exact absurd hm (by decide)
    have hskip := @entries_append _ rest hquiet name'
    rw [List.cons_append, List.append_assoc] at hskip
    rw [entries_tableStart_of_ne heq hconst, hskip, hlookup]
    rfl

/-- An object that is declared constant. -/
theorem Rows.tells (h : Rows D n ks ls) {name : String} (hname : isName name.toList = false)
    (hlet : name.toList ≠ "let".toList) (hconst : name.toList ≠ "const".toList) :
    Tells D n [] [(name, ks)]
      ((.mark '\t' :: (tableStart name ++ [.mark '\n'])) ++ (ls ++ tableEnd)) := by
  have hrows : Calm D n (ls ++ tableEnd) := h.toCalm.append (calm_of_isQuiet (by decide))
  have hwords : ∀ w, .word w ∈ .mark '\t' :: (tableStart name ++ [.mark '\n']) →
      w = "const".toList ∨ w = name.toList := by
    intro w hw
    simpa [tableStart] using hw
  have hstart : Refers D n (.mark '\t' :: (tableStart name ++ [.mark '\n'])) := by
    refine ⟨fun w hw hw' => ?_, ?_⟩
    · rcases hwords w hw with rfl | rfl
      · cases hw'
      · rw [hname] at hw'
        cases hw'
    · -- the name of the object is followed by a blank
      simp [Calls, tableStart]
  have hlet' : .word "let".toList ∉ (.mark '\t' :: (tableStart name ++ [.mark '\n'])) ++
      (ls ++ tableEnd) := by
    intro hm
    rcases List.mem_append.mp hm with hm | hm
    · exact (hwords _ hm).elim (by decide) (Ne.symm hlet)
    · exact hrows.not_let hm
  refine ⟨hstart.append hrows.toRefers, fun rest => declared_append hlet', fun name' rest => ?_⟩
  have htab : ∀ ms, entries name' ([.mark '\t'] ++ ms) = entries name' ms := fun ms =>
    entries_append (by decide) name'
  rw [List.append_assoc, List.append_assoc]
  exact (htab _).trans (h.entries_eq hconst name' rest)

/-! ## Declared names -/

/-- A name with what it is initially. -/
theorem Items.single {w : List Char} (hw : Calm D n [.word w]) {value : List Lexeme}
    (hvalue : Calm D n value)
    (hskip : ∀ rest, declarators false (value ++ rest) = declarators false rest) :
    Items D n [w] (.word w :: value) where
  toCalm := hw.append hvalue
  names_eq rest := by
    rw [List.cons_append, declarators, if_pos rfl, hskip]
    rfl

theorem Items.append (h : Items D n ws ls) (h' : Items D n ws' ms) :
    Items D n (ws ++ ws') (ls ++ ([.mark ',', .mark ' '] ++ ms)) where
  toCalm := h.toCalm.append ((calm_of_isQuiet (by decide)).append h'.toCalm)
  names_eq rest := by
    have hgap : ∀ ls, declarators false (.mark ',' :: .mark ' ' :: ls) = declarators true ls :=
      fun _ => rfl
    rw [List.append_assoc, h.names_eq, List.append_assoc, List.cons_append, List.cons_append,
      List.nil_append, hgap, h'.names_eq, List.append_assoc]

theorem Items.tells (h : Items D n ws ls) : Tells D n ws []
    (.mark '\t' :: .word "let".toList :: .mark ' ' :: (ls ++ [.mark ';', .mark '\n'])) := by
  have hitems : Calm D n (.mark ' ' :: (ls ++ [.mark ';', .mark '\n'])) := by
    have hblank : Calm D n [.mark ' '] := calm_of_isQuiet rfl
    exact hblank.append (h.toCalm.append (calm_of_isQuiet rfl))
  have hlet : Refers D n [.mark '\t', .word "let".toList] := by
    refine ⟨fun w hw hname => ?_, calls_of_not_mem (by decide)⟩
    have hw : w = "let".toList := by simpa using hw
    rw [hw] at hname
    cases hname
  refine ⟨hlet.append hitems.toRefers, fun rest => ?_, fun name rest => entries_append ?_ name⟩
  · have hdeclared : declared (.mark ' ' :: (ls ++ [.mark ';', .mark '\n']) ++ rest) =
        declared rest :=
      declared_append hitems.not_let
    have hnames : declarators true (.mark ' ' :: (ls ++ [.mark ';', .mark '\n']) ++ rest) = ws := by
      have hend : declarators false ([.mark ';', .mark '\n'] ++ rest) = [] := rfl
      have hblank : ∀ ls, declarators true (.mark ' ' :: ls) = declarators true ls := fun _ => rfl
      rw [List.cons_append, hblank, List.append_assoc, h.names_eq, hend, List.append_nil]
    change declared (.word "let".toList ::
      (.mark ' ' :: (ls ++ [.mark ';', .mark '\n']) ++ rest)) = _
    rw [declared, if_pos rfl, hdeclared, hnames]
  · intro hm
    rcases List.mem_cons.mp hm with hm | hm
    · cases hm
    · rcases List.mem_cons.mp hm with hm | hm
      · exact absurd hm (by decide)
      · exact hitems.not_const hm

/-! ## Sections in order -/

variable {tables tables' : List (String × List Lexeme)} {x y : String}

theorem Reads.append_tells (hx : Reads (Tells D n ws tables) x false)
    (hy : Reads (Tells D n ws' tables') y false) :
    Reads (Tells D n (ws ++ ws') (tables ++ tables')) (x ++ y) false := by
  obtain ⟨ls, hx, hls⟩ := hx
  obtain ⟨ms, hy, hms⟩ := hy
  exact ⟨ls ++ ms, hx.append hy, hls.append hms⟩

theorem Reads.append_calm (hx : Reads (Tells D n ws tables) x false)
    (hy : Reads (Calm D n) y false) : Reads (Tells D n ws tables) (x ++ y) false := by
  have hxy := hx.append_tells (hy.imp fun _ h => h.tells)
  rwa [List.append_nil, List.append_nil] at hxy

/-- A table as it is written, line by line. -/
theorem Reads.append_table {name start body : String} (hx : Reads (Tells D n ws tables) x false)
    (hbody : Reads (Rows D n ks) body false)
    (hstart : Lexes start false (.mark '\t' :: (tableStart name ++ [.mark '\n'])))
    (hname : isName name.toList = false) (hlet : name.toList ≠ "let".toList)
    (hconst : name.toList ≠ "const".toList) :
    Reads (Tells D n ws (tables ++ [(name, ks)]))
      (x ++ start ++ body ++ "\n" ++ "\t\x7d;\n") false := by
  obtain ⟨as, has, htells⟩ := hx
  obtain ⟨ls, hls, hrows⟩ := hbody
  have hclose : Lexes "\n\t\x7d;\n" false tableEnd := lexes_closed (by decide) (by decide)
  have htable := htells.append (hrows.tells hname hlet hconst)
  rw [List.append_nil] at htable
  have hlexes := has.append (hstart.append (hls.append hclose))
  have htext : x ++ start ++ body ++ "\n" ++ "\t\x7d;\n" =
      x ++ (start ++ (body ++ "\n\t\x7d;\n")) := by
    have hlines : "\n\t\x7d;\n" = "\n" ++ "\t\x7d;\n" := by decide +kernel
    rw [hlines]
    simp only [String.append_assoc]
  exact ⟨_, htext ▸ hlexes, htable⟩

end Sections
end Stencil.Script
