import Mathlib.Data.List.Pairwise
import Stencil.Proofs.Json.Plain

/-! Clear data: no object in it has two keys that lead along one path. Whatever is found in
clear data is clear. -/
namespace Stencil
open Binding Text

namespace Json

/-- The second key is the first one, or goes on from it after a dot. -/
def covers (k k' : String) : Bool := k == k' || (k.toList ++ ['.']).isPrefixOf k'.toList

/-- No field has the key of another one, or a key that covers it. -/
def Apart (fields : List (String × Json)) : Prop :=
  fields.Pairwise fun f g => covers f.1 g.1 = false ∧ covers g.1 f.1 = false

instance (fields : List (String × Json)) : Decidable (Apart fields) :=
  inferInstanceAs (Decidable (List.Pairwise _ fields))

theorem covers_self (k : String) : covers k k = true := by
  simp [covers]

variable {fs : List (String × Json)} {f g : String × Json}

theorem Apart.eq_of_covers (h : Apart fs) (hf : f ∈ fs) (hg : g ∈ fs)
    (hcovers : covers f.1 g.1 = true) : f = g := by
  by_contra hne
  have hsymm : Std.Symm fun f g : String × Json =>
      covers f.1 g.1 = false ∧ covers g.1 f.1 = false :=
    ⟨fun _ _ h => h.symm⟩
  have hapart := (List.Pairwise.forall h hf hg hne).1
  rw [hcovers] at hapart
  cases hapart

theorem Apart.not_mem {pre post : List (String × Json)} (h : Apart (pre ++ f :: post)) :
    f ∉ pre ∧ f ∉ post := by
  have hnodup : (pre ++ f :: post).Nodup := by
    refine h.imp fun {f g} hfg he => ?_
    rw [he, covers_self] at hfg
    cases hfg.1
  have hmem := (List.nodup_cons.mp (List.nodup_middle.mp hnodup)).1
  exact ⟨fun hm => hmem (List.mem_append_left _ hm), fun hm => hmem (List.mem_append_right _ hm)⟩

mutual

/-- In no object at any depth does a key cover another one. -/
def isClear : Json → Bool
  | .arr items => clearItems items
  | .obj fields => decide (Apart fields) && clearFields fields
  | _ => true

def clearItems : List Json → Bool
  | [] => true
  | x :: xs => isClear x && clearItems xs

def clearFields : List (String × Json) → Bool
  | [] => true
  | (_, x) :: fs => isClear x && clearFields fs

end

theorem isClear_arr_iff {xs : List Json} :
    (Json.arr xs).isClear = true ↔ ∀ x ∈ xs, x.isClear = true := by
  rw [isClear]
  induction xs with
  | nil => simp [clearItems]
  | cons x xs ih => simp [clearItems, ih]

theorem isClear_obj_iff {fs : List (String × Json)} :
    (Json.obj fs).isClear = true ↔ Apart fs ∧ ∀ f ∈ fs, f.2.isClear = true := by
  have hfields : clearFields fs = true ↔ ∀ f ∈ fs, f.2.isClear = true := by
    induction fs with
    | nil => simp [clearFields]
    | cons f fs ih => simp [clearFields, ih]
  rw [isClear, Bool.and_eq_true, decide_eq_true_iff, hfields]

theorem isClear_follow (ss : List String) {x : Json} (h : x.isClear = true) :
    (x.follow ss).isClear = true := by
  refine follow_keeps (P := fun x => x.isClear = true) rfl (fun x y k h hy => ?_) ss h
  cases x with
  | obj fields =>
    obtain ⟨f, hf, rfl⟩ := Option.map_eq_some_iff.mp hy
    exact (isClear_obj_iff.mp h).2 f (List.mem_of_find?_eq_some hf)
  | _ => cases hy

theorem isClear_items (dir : Directive) {x : Json} (h : x.isClear = true) :
    ∀ y ∈ dir.items x, y.isClear = true :=
  items_keep (P := fun x => x.isClear = true) (fun _ h => isClear_arr_iff.mp h) dir h

end Json

namespace Text

theorem join_append (sep : Char) {ws vs : List (List Char)} (hw : ws ≠ []) (hv : vs ≠ []) :
    join sep (ws ++ vs) = join sep ws ++ sep :: join sep vs := by
  induction ws with
  | nil => exact absurd rfl hw
  | cons w ws ih =>
    cases ws with
    | nil => exact join_cons sep w hv
    | cons u us =>
      rw [List.cons_append, join_cons sep w (by simp), join_cons sep w (by simp), ih (by simp),
        List.append_assoc, List.cons_append]

end Text

/-- A key that spells out a part of a path covers the keys that go on along the path. -/
theorem Binding.covers_dotted {ss ts : List String} (hs : ss ≠ []) (h : ss <+: ts) :
    Json.covers (dotted ss) (dotted ts) = true := by
  obtain ⟨us, rfl⟩ := h
  cases us with
  | nil => simp [Json.covers]
  | cons u us =>
    have hjoin : join '.' (ss.map String.toList ++ (u :: us).map String.toList) =
        join '.' (ss.map String.toList) ++ '.' :: join '.' ((u :: us).map String.toList) :=
      join_append '.' (by simpa using hs) (by simp)
    rw [Json.covers, Bool.or_eq_true, List.isPrefixOf_iff_prefix]
    right
    simp only [dotted, String.toList_ofList, List.map_append, hjoin]
    exact ⟨join '.' ((u :: us).map String.toList), by simp⟩

end Stencil
