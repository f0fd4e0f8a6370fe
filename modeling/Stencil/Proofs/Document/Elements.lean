import Stencil.Document.Basic

/-! Elements: their attributes by namespace and name, their properties by name, and what
is found in them after a change. -/
namespace Stencil.Document

def Kind.onElement (f : Element → Element) : Kind → Kind
  | .element e => .element (f e)
  | k => k

def Kind.element? : Kind → Option Element
  | .element e => some e
  | _ => none

def Kind.text? : Kind → Option String
  | .text s => some s
  | _ => none

namespace Element

def putAttribute (key : Option String × String) (value : String) (e : Element) : Element :=
  { e with attributes := Attr.put key.1 key.2 value e.attributes }

def dropAttribute (key : Option String × String) (e : Element) : Element :=
  { e with attributes := e.attributes.filter (!·.isNamed key.1 key.2) }

def putProperty (name : String) (value : Json) (e : Element) : Element :=
  { e with properties := Document.putProperty name value e.properties }

def dropProperty (name : String) (e : Element) : Element :=
  { e with properties := e.properties.filter (·.1 != name) }

def attribute? (key : Option String × String) (e : Element) : Option String :=
  (e.attributes.find? (·.isNamed key.1 key.2)).map (·.value)

def property? (name : String) (e : Element) : Option Json :=
  (e.properties.find? (·.1 == name)).map (·.2)

theorem isNamed_iff {key : Option String × String} {a : Attr} :
    a.isNamed key.1 key.2 = true ↔ (a.space, a.name) = key := by
  simp [Attr.isNamed, Prod.ext_iff]

@[simp] theorem attribute?_putAttribute (key key' : Option String × String) (value : String)
    (e : Element) : (e.putAttribute key value).attribute? key' =
      if key' = key then some value else e.attribute? key' := by
  unfold attribute? putAttribute
  dsimp only
  induction e.attributes with
  | nil =>
    rw [Attr.put, List.find?_singleton]
    by_cases h : key' = key
    · rw [if_pos h, if_pos (isNamed_iff.mpr h.symm)]
      rfl
    · rw [if_neg h, if_neg fun hn => h (isNamed_iff.mp hn).symm]
      rfl
  | cons a as ih =>
    rw [Attr.put]
    by_cases ha : a.isNamed key.1 key.2 = true
    · have hkey := isNamed_iff.mp ha
      rw [if_pos ha, List.find?_cons, List.find?_cons]
      by_cases h : key' = key
      · have hv : Attr.isNamed key'.1 key'.2 { a with value := value } = true := by rw [h]; exact ha
        rw [hv, if_pos h]
        rfl
      · have hn : a.isNamed key'.1 key'.2 = false := by
          rw [Bool.eq_false_iff]
          exact fun hn => h ((isNamed_iff.mp hn).symm.trans hkey)
        have hn' : Attr.isNamed key'.1 key'.2 { a with value := value } = false := hn
        rw [hn, hn', if_neg h]
    · rw [if_neg ha, List.find?_cons, List.find?_cons]
      cases hn : a.isNamed key'.1 key'.2 with
      | true =>
        have : key' ≠ key := by
          rintro rfl
          exact ha hn
        simp [this]
      | false => exact ih

@[simp] theorem attribute?_dropAttribute (key key' : Option String × String) (e : Element) :
    (e.dropAttribute key).attribute? key' = if key' = key then none else e.attribute? key' := by
  unfold attribute? dropAttribute
  rw [List.find?_filter]
  by_cases h : key' = key
  · rw [if_pos h, h, List.find?_eq_none.mpr]
    · rfl
    · simp
  · rw [if_neg h]
    congr 2
    funext a
    cases hn : a.isNamed key'.1 key'.2 with
    | false => simp
    | true =>
      have : a.isNamed key.1 key.2 = false := by
        rw [Bool.eq_false_iff]
        exact fun hk => h ((isNamed_iff.mp hn).symm.trans (isNamed_iff.mp hk))
      simp [this]

@[simp] theorem attribute?_dropProperty (key : Option String × String) (name : String)
    (e : Element) : (e.dropProperty name).attribute? key = e.attribute? key := rfl

@[simp] theorem property?_putAttribute (key : Option String × String) (name value : String)
    (e : Element) : (e.putAttribute key value).property? name = e.property? name := rfl

@[simp] theorem property?_putProperty (name name' : String) (value : Json) (e : Element) :
    (e.putProperty name value).property? name' =
      if name' = name then some value else e.property? name' := by
  unfold property? putProperty
  dsimp only
  induction e.properties with
  | nil =>
    by_cases h : name' = name
    · simp [Document.putProperty, h]
    · have hn : name ≠ name' := fun he => h he.symm
      simp [Document.putProperty, h, hn]
  | cons p ps ih =>
    rw [Document.putProperty]
    by_cases hp : p.1 = name
    · by_cases h : name' = name
      · simp [hp, h]
      · have hn : p.1 ≠ name' := fun he => h (he.symm.trans hp)
        have hn' : name ≠ name' := fun he => h he.symm
        simp [hp, hn', h]
    · rw [if_neg hp, List.find?_cons, List.find?_cons]
      by_cases hn : p.1 = name'
      · have h : name' ≠ name := fun he => hp (hn.trans he)
        simp [hn, h]
      · simp only [beq_eq_false_iff_ne.mpr hn]
        exact ih

@[simp] theorem property?_dropProperty (name name' : String) (e : Element) :
    (e.dropProperty name).property? name' = if name' = name then none else e.property? name' := by
  unfold property? dropProperty
  rw [List.find?_filter]
  by_cases h : name' = name
  · rw [if_pos h, h, List.find?_eq_none.mpr]
    · rfl
    · simp
  · rw [if_neg h]
    congr 2
    funext p
    by_cases hp : p.1 = name'
    · simp [hp, h]
    · simp [hp]

end Element
end Stencil.Document
