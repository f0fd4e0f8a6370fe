import Mathlib.Data.List.Nodup
import Stencil.Binding.Path
import Stencil.Proofs.Instance.View

/-! Plain data: the keys of every object in it differ and have no dots. Whatever is found
in plain data is plain. -/
namespace Stencil
open Binding Text

namespace Json

mutual

/-- No object at any depth has a key with a dot, or the same key twice. -/
def isPlain : Json → Bool
  | .arr items => plainItems items
  | .obj fields => decide (fields.map (·.1)).Nodup && plainFields fields
  | _ => true

def plainItems : List Json → Bool
  | [] => true
  | x :: xs => isPlain x && plainItems xs

def plainFields : List (String × Json) → Bool
  | [] => true
  | (k, x) :: fs => !k.toList.contains '.' && isPlain x && plainFields fs

end

theorem isPlain_of_mem_items {xs : List Json} (h : plainItems xs = true) {x : Json} (hx : x ∈ xs) :
    x.isPlain = true := by
  induction xs with
  | nil => cases hx
  | cons y ys ih =>
    rw [plainItems, Bool.and_eq_true] at h
    rcases List.mem_cons.mp hx with rfl | hx
    · exact h.1
    · exact ih h.2 hx

theorem isPlain_of_mem_fields {fs : List (String × Json)} (h : plainFields fs = true)
    {f : String × Json} (hf : f ∈ fs) : '.' ∉ f.1.toList ∧ f.2.isPlain = true := by
  induction fs with
  | nil => cases hf
  | cons g gs ih =>
    rw [plainFields, Bool.and_eq_true, Bool.and_eq_true] at h
    rcases List.mem_cons.mp hf with rfl | hf
    · exact ⟨by simpa using h.1.1, h.1.2⟩
    · exact ih h.2 hf

/-- A field of plain data is the only one with its key. -/
theorem exists_split {fs : List (String × Json)} (h : (fs.map (·.1)).Nodup) {k : String}
    (hk : ((Json.obj fs).field? k).isSome) : ∃ pre x post, fs = pre ++ (k, x) :: post ∧
      (∀ f ∈ pre, f.1 ≠ k) ∧ (∀ f ∈ post, f.1 ≠ k) ∧ (Json.obj fs).field? k = some x := by
  rw [field?, Option.isSome_map, List.find?_isSome] at hk
  obtain ⟨⟨k', x⟩, hf, hkey⟩ := hk
  obtain rfl : k' = k := by simpa using hkey
  obtain ⟨pre, post, rfl⟩ := List.append_of_mem hf
  rw [List.map_append, List.map_cons, List.nodup_append] at h
  have hpre : ∀ f ∈ pre, f.1 ≠ k' := fun f hf =>
    h.2.2 f.1 (List.mem_map_of_mem hf) k' List.mem_cons_self
  have hpost : ∀ f ∈ post, f.1 ≠ k' := fun f hf he =>
    (List.nodup_cons.mp h.2.1).1 (List.mem_map.mpr ⟨f, hf, he⟩)
  have hnone : pre.find? (·.1 == k') = none := by
    rw [List.find?_eq_none]
    exact fun f hf he => hpre f hf (by simpa using he)
  refine ⟨pre, x, post, rfl, hpre, hpost, ?_⟩
  rw [field?, List.find?_append, hnone]
  simp

theorem isPlain_field? {x y : Json} (h : x.isPlain = true) {k : String} (hy : x.field? k = some y) :
    y.isPlain = true := by
  cases x with
  | obj fields =>
    rw [isPlain, Bool.and_eq_true] at h
    obtain ⟨f, hf, rfl⟩ := Option.map_eq_some_iff.mp hy
    exact (isPlain_of_mem_fields h.2 (List.mem_of_find?_eq_some hf)).2
  | _ => cases hy

/-- What null is, and the fields of whatever is so, all is that is found by following a path. -/
theorem follow_keeps {P : Json → Prop} (hnull : P .null)
    (hfield : ∀ x y k, P x → x.field? k = some y → P y) (ss : List String) {x : Json} (h : P x) :
    P (x.follow ss) := by
  induction ss generalizing x with
  | nil => exact h
  | cons k ks ih =>
    rw [follow]
    cases hy : x.field? k with
    | none => exact hnull
    | some y => exact ih (hfield x y k h hy)

/-- A directive goes through the items of an array, or takes the value itself. -/
theorem items_keep {P : Json → Prop} (harr : ∀ xs, P (.arr xs) → ∀ y ∈ xs, P y) (dir : Directive)
    {x : Json} (h : P x) : ∀ y ∈ dir.items x, P y := by
  intro y hy
  cases dir with
  | forEach =>
    cases x with
    | arr items => exact harr items h y hy
    | _ => cases hy
  | onTruthy =>
    rw [Directive.items] at hy
    split at hy
    · rwa [List.mem_singleton.mp hy]
    · cases hy
  | onPresent =>
    rw [Directive.items] at hy
    split at hy
    · rwa [List.mem_singleton.mp hy]
    · cases hy

theorem isPlain_follow (ss : List String) {x : Json} (h : x.isPlain = true) :
    (x.follow ss).isPlain = true :=
  follow_keeps (P := fun x => x.isPlain = true) rfl (fun _ _ _ h hy => isPlain_field? h hy) ss h

theorem isPlain_items (dir : Directive) {x : Json} (h : x.isPlain = true) :
    ∀ y ∈ dir.items x, y.isPlain = true :=
  items_keep (P := fun x => x.isPlain = true)
    (fun _ h _ hy => isPlain_of_mem_items (by rwa [isPlain] at h) hy) dir h

end Json

/-- Segments that are joined without a dot are one. -/
theorem Binding.eq_singleton_of_dotted {ss : List String} (hs : ss ≠ []) {k : String}
    (h : dotted ss = k) (hk : '.' ∉ k.toList) : ss = [k] := by
  subst h
  cases ss with
  | nil => exact absurd rfl hs
  | cons s ss =>
    cases ss with
    | nil => simp [dotted, join]
    | cons s' ss => simp [dotted, join] at hk

end Stencil
