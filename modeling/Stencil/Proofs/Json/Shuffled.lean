import Stencil.Proofs.Json.Clear

/-! Data in which the fields of objects stand in another order. As long as it is clear, what is
found in it along a path is the same, but for the order of fields again. -/
namespace Stencil
open Binding

namespace Json

/-- Neither an array nor an object. -/
def isScalar : Json → Bool
  | .arr _ | .obj _ => false
  | _ => true

/-- The values differ only in the order of object fields, at any depth. -/
inductive Shuffled : Json → Json → Prop
  | null : Shuffled .null .null
  | bool (b : Bool) : Shuffled (.bool b) (.bool b)
  | num (n : Number) : Shuffled (.num n) (.num n)
  | str (s : String) : Shuffled (.str s) (.str s)
  | arr {xs ys : List Json} (length_eq : xs.length = ys.length)
      (items : ∀ (k : Nat) x y, xs[k]? = some x → ys[k]? = some y → Shuffled x y) :
      Shuffled (.arr xs) (.arr ys)
  | obj {fs gs hs : List (String × Json)} (perm : fs.Perm hs)
      (keys_eq : hs.map (·.1) = gs.map (·.1))
      (values : ∀ (k : Nat) f g, hs[k]? = some f → gs[k]? = some g → Shuffled f.2 g.2) :
      Shuffled (.obj fs) (.obj gs)

theorem Shuffled.refl : ∀ x : Json, Shuffled x x
  | .null => .null
  | .bool b => .bool b
  | .num n => .num n
  | .str s => .str s
  | .arr xs => by
    refine .arr rfl fun k x y hx hy => ?_
    cases hx.symm.trans hy
    have hmem := List.mem_of_getElem? hx
    exact refl x
  | .obj fs => by
    refine .obj (.refl fs) rfl fun k f g hf hg => ?_
    cases hf.symm.trans hg
    have hmem := List.mem_of_getElem? hf
    exact refl f.2
termination_by x => sizeOf x
decreasing_by
  · have := List.sizeOf_lt_of_mem hmem
    simp only [Json.arr.sizeOf_spec]
    omega
  · have := List.sizeOf_lt_of_mem hmem
    cases f
    simp only [Json.obj.sizeOf_spec, Prod.mk.sizeOf_spec] at this ⊢
    omega

theorem Shuffled.arr_cons {x y : Json} {xs ys : List Json} (h : Shuffled x y)
    (ht : Shuffled (.arr xs) (.arr ys)) : Shuffled (.arr (x :: xs)) (.arr (y :: ys)) := by
  cases ht with
  | arr length_eq items =>
    refine .arr (congrArg (· + 1) length_eq) fun k a b ha hb => ?_
    cases k with
    | zero =>
      cases ha
      cases hb
      exact h
    | succ k => exact items k a b ha hb

theorem Shuffled.obj_cons {x y : Json} {fs gs : List (String × Json)} (key : String)
    (h : Shuffled x y) (ht : Shuffled (.obj fs) (.obj gs)) :
    Shuffled (.obj ((key, x) :: fs)) (.obj ((key, y) :: gs)) := by
  cases ht with
  | obj perm keys_eq values =>
    refine .obj (perm.cons _) (congrArg (key :: ·) keys_eq) fun k f g hf hg => ?_
    cases k with
    | zero =>
      cases hf
      cases hg
      exact h
    | succ k => exact values k f g hf hg

/-- The fields may be put in another order first. -/
theorem Shuffled.obj_perm {fs fs' gs : List (String × Json)} (hfs : fs.Perm fs')
    (h : Shuffled (.obj fs') (.obj gs)) : Shuffled (.obj fs) (.obj gs) := by
  cases h with
  | obj perm keys_eq values => exact .obj (hfs.trans perm) keys_eq values

theorem Shuffled.eq_of_isScalar {x y : Json} (h : Shuffled x y) (hx : x.isScalar = true) :
    x = y := by
  cases h with
  | arr | obj => cases hx
  | _ => rfl

/-! ## Objects -/

/-- Each field has its match among the others: one of its key, whose value differs in order
only. -/
structure Matched (fs gs : List (String × Json)) : Prop where
  exists_right : ∀ f ∈ fs, ∃ g ∈ gs, g.1 = f.1 ∧ Shuffled f.2 g.2
  exists_left : ∀ g ∈ gs, ∃ f ∈ fs, g.1 = f.1 ∧ Shuffled f.2 g.2

theorem Shuffled.matched {fs gs : List (String × Json)} (h : Shuffled (.obj fs) (.obj gs)) :
    Matched fs gs := by
  cases h with
  | @obj _ _ hs perm keys_eq values =>
    have hkey : ∀ (k : Nat) f g, hs[k]? = some f → gs[k]? = some g → g.1 = f.1 := by
      intro k f g hf hg
      have hmap := congrArg (·[k]?) keys_eq
      simp only [List.getElem?_map, hf, hg, Option.map_some, Option.some.injEq] at hmap
      exact hmap.symm
    have hlength : hs.length = gs.length := by simpa using congrArg List.length keys_eq
    constructor
    · intro f hf
      obtain ⟨k, hk⟩ := List.getElem?_of_mem (perm.subset hf)
      have hlt := (List.getElem?_eq_some_iff.mp hk).1
      have hg : gs[k]? = some _ := List.getElem?_eq_getElem (hlength ▸ hlt)
      exact ⟨_, List.mem_of_getElem? hg, hkey k _ _ hk hg, values k _ _ hk hg⟩
    · intro g hg
      obtain ⟨k, hk⟩ := List.getElem?_of_mem hg
      have hlt := (List.getElem?_eq_some_iff.mp hk).1
      have hf : hs[k]? = some _ := List.getElem?_eq_getElem (hlength ▸ hlt)
      exact ⟨_, perm.symm.subset (List.mem_of_getElem? hf), hkey k _ _ hf hk, values k _ _ hf hk⟩

theorem apart_iff {fs : List (String × Json)} : Apart fs ↔
    (fs.map (·.1)).Pairwise fun k k' => covers k k' = false ∧ covers k' k = false := by
  rw [List.pairwise_map]
  rfl

theorem Shuffled.isClear {x y : Json} (h : Shuffled x y) (hx : x.isClear = true) :
    y.isClear = true := by
  induction h with
  | null | bool | num | str => rfl
  | @arr xs ys length_eq items ih =>
    rw [isClear_arr_iff] at hx ⊢
    intro y hy
    obtain ⟨k, hk⟩ := List.getElem?_of_mem hy
    have hlt := (List.getElem?_eq_some_iff.mp hk).1
    have hxk : xs[k]? = some _ := List.getElem?_eq_getElem (length_eq ▸ hlt)
    exact ih k _ y hxk hk (hx _ (List.mem_of_getElem? hxk))
  | @obj fs gs hs perm keys_eq values ih =>
    rw [isClear_obj_iff] at hx ⊢
    refine ⟨?_, fun g hg => ?_⟩
    · have hapart := apart_iff.mp hx.1
      rw [apart_iff, ← keys_eq]
      exact (List.Perm.pairwise_iff (fun h => h.symm) (perm.map _)).mp hapart
    · obtain ⟨k, hk⟩ := List.getElem?_of_mem hg
      have hlength : hs.length = gs.length := by simpa using congrArg List.length keys_eq
      have hf : hs[k]? = some _ :=
        List.getElem?_eq_getElem (hlength ▸ (List.getElem?_eq_some_iff.mp hk).1)
      exact ih k _ g hf hk (hx.2 _ (perm.symm.subset (List.mem_of_getElem? hf)))

/-! ## What is found along a path -/

/-- The field of a key is the one that has it. -/
theorem field?_of_mem {fs : List (String × Json)} (hfs : Apart fs) {f : String × Json}
    (hf : f ∈ fs) : (Json.obj fs).field? f.1 = some f.2 := by
  have hsome : (fs.find? (·.1 == f.1)).isSome := List.find?_isSome.mpr ⟨f, hf, by simp⟩
  obtain ⟨g, hg⟩ := Option.isSome_iff_exists.mp hsome
  have hkey : g.1 = f.1 := by simpa using List.find?_some hg
  have hgf : g = f := hfs.eq_of_covers (List.mem_of_find?_eq_some hg) hf (by simp [covers, hkey])
  rw [field?, hg, hgf]
  rfl

theorem Shuffled.follow {x y : Json} (h : Shuffled x y) (hx : x.isClear = true)
    (ss : List String) : Shuffled (x.follow ss) (y.follow ss) := by
  induction ss generalizing x y with
  | nil => exact h
  | cons k ss ih =>
    rw [Json.follow, Json.follow]
    cases h with
    | @obj fs gs hs perm keys_eq values =>
      have hmatched : Matched fs gs := (Shuffled.obj perm keys_eq values).matched
      have hy := (Shuffled.obj perm keys_eq values).isClear hx
      rw [isClear_obj_iff] at hx hy
      by_cases hk : ∃ f ∈ fs, f.1 = k
      · obtain ⟨f, hf, rfl⟩ := hk
        obtain ⟨g, hg, hkey, hfg⟩ := hmatched.exists_right f hf
        rw [field?_of_mem hx.1 hf, ← hkey, field?_of_mem hy.1 hg]
        exact ih hfg (hx.2 f hf)
      · have hnone : ∀ {es : List (String × Json)}, (∀ e ∈ es, e.1 ≠ k) →
            (Json.obj es).field? k = none := by
          intro es hes
          rw [field?, Option.map_eq_none_iff, List.find?_eq_none]
          exact fun e he hek => hes e he (by simpa using hek)
        rw [hnone fun f hf he => hk ⟨f, hf, he⟩, hnone fun g hg he => ?_]
        · exact .null
        · obtain ⟨f, hf, hkey, _⟩ := hmatched.exists_left g hg
          exact hk ⟨f, hf, hkey.symm.trans he⟩
    | _ => exact .null

/-! ## Items -/

theorem Shuffled.isTruthy_eq {x y : Json} (h : Shuffled x y) : x.isTruthy = y.isTruthy := by
  cases h <;> rfl

theorem Shuffled.isPresent_eq {x y : Json} (h : Shuffled x y) : x.isPresent = y.isPresent := by
  have hempty : ∀ {α : Type} {as bs : List α}, as.length = bs.length → as.isEmpty = bs.isEmpty := by
    intro α as bs hlength
    rw [Bool.eq_iff_iff, List.isEmpty_iff, List.isEmpty_iff, ← List.length_eq_zero_iff, hlength,
      List.length_eq_zero_iff]
  cases h with
  | arr length_eq => rw [isPresent, isPresent, hempty length_eq]
  | obj perm keys_eq =>
    have hlength := congrArg List.length keys_eq
    rw [List.length_map, List.length_map, ← perm.length_eq] at hlength
    rw [isPresent, isPresent, hempty hlength]
  | _ => rfl

/-- A directive finds as many items, which differ in order only. -/
theorem Shuffled.items {x y : Json} (h : Shuffled x y) (dir : Directive) :
    (dir.items x).length = (dir.items y).length ∧ ∀ (k : Nat) a b, (dir.items x)[k]? = some a →
      (dir.items y)[k]? = some b → Shuffled a b := by
  have hone : ∀ test : Bool,
      (if test then [x] else []).length = (if test then [y] else []).length ∧
        ∀ (k : Nat) a b, (if test then [x] else [])[k]? = some a →
          (if test then [y] else [])[k]? = some b → Shuffled a b := by
    intro test
    cases test with
    | false => simp
    | true =>
      refine ⟨rfl, fun k a b ha hb => ?_⟩
      cases k with
      | zero =>
        cases ha
        cases hb
        exact h
      | succ k => cases ha
  cases dir with
  | onTruthy =>
    rw [Directive.items, Directive.items, ← h.isTruthy_eq]
    exact hone _
  | onPresent =>
    rw [Directive.items, Directive.items, ← h.isPresent_eq]
    exact hone _
  | forEach =>
    cases h with
    | arr length_eq items => exact ⟨length_eq, items⟩
    | _ => exact ⟨rfl, fun k a b ha => by cases ha⟩

end Json
end Stencil
