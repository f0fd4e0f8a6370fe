import Stencil.Proofs.Document.Appearance
import Stencil.Proofs.Instance.Changes
import Stencil.Proofs.Instance.Forgetting

/-! Instances in place whose views are alike look the same: what their slots account for is
compared slot by slot, from the last one to the first, since elements hold later slots only. -/
namespace Stencil
open Binding Document Instance Appearance

namespace Instance

variable {c : Catalog} {o : Origin} {d e : Document} {i j : Instance}

/-- Two instances of one template in place, whose views are alike. -/
structure Resembles (c : Catalog) (d e : Document) (i j : Instance) : Prop where
  left : i.Stands c d
  right : j.Stands c e
  alike : (i.view d).Alike (j.view e)

theorem Resembles.template_eq (h : Resembles c d e i j) : j.template = i.template := by
  have halike := h.alike
  rw [view_eq, view_eq] at halike
  cases halike with
  | intro template_eq => exact template_eq.symm

/-- The texts of a slot have the same content. -/
theorem Resembles.same_content (h : Resembles c d e i j) {s : Slot} {n m : NodeId} {a b : String}
    (hn : i.nodes[s]? = some n) (hk : d.kind? n = some (.text a)) (hm : j.nodes[s]? = some m)
    (hl : e.kind? m = some (.text b)) : Same d e [n] [m] := by
  have hab : (i.view d).text? s = (j.view e).text? s := by
    cases h.alike with
    | intro _ text_eq => exact text_eq s
  rw [View.text?, View.text?, kinds_view hn hk, kinds_view hm hl] at hab
  cases hab
  exact Appearance.same_text hk hl

theorem Resembles.same_text (h : Resembles c d e i j) (ht : i.template.Sound) {s q : Slot}
    {content : String} (hs : i.template.seeds[s]? = some (.text q content)) :
    Same d e (i.slotBlock s) (j.slotBlock s) := by
  have htj := h.template_eq
  obtain ⟨n, k, hn, hk, hh⟩ := h.left.exists_node hs
  obtain ⟨m, l, hm, hl, hh'⟩ := h.right.exists_node (htj ▸ hs)
  have htext : i.template.HasText s := ⟨_, _, hs⟩
  rw [slotBlock_plain ht (.inr htext) hn, slotBlock_plain (htj ▸ ht) (.inr (htj ▸ htext)) hm]
  cases k with
  | element | fragment => cases hh
  | text a =>
    cases l with
    | element | fragment => cases hh'
    | text b => exact h.same_content hn hk hm hl

/-- The nodes of an element have the same tag, namespace, attributes and properties. -/
theorem Resembles.same_element (h : Resembles c d e i j) (ht : i.template.Sound) {s q : Slot}
    {tag : String} {svg : Bool} (hs : i.template.seeds[s]? = some (.element q tag svg))
    (hch : ∀ s' ∈ i.template.slotsAt (.slot s), Same d e (i.slotBlock s') (j.slotBlock s')) :
    Same d e (i.slotBlock s) (j.slotBlock s) := by
  have htj := h.template_eq
  obtain ⟨n, k, hn, hk, hh⟩ := h.left.exists_node hs
  obtain ⟨m, l, hm, hl, hh'⟩ := h.right.exists_node (htj ▸ hs)
  have hel : i.template.HasElement s := ⟨_, _, _, hs⟩
  have hel' : j.template.HasElement s := htj ▸ hel
  rw [slotBlock_plain ht (.inl hel) hn, slotBlock_plain (htj ▸ ht) (.inl hel') hm]
  cases k with
  | text | fragment => cases hh
  | element a =>
    cases l with
    | text | fragment => cases hh'
    | element b =>
      have ha : (i.view d).element? s = some a := by rw [View.element?, kinds_view hn hk]; rfl
      have hb : (j.view e).element? s = some b := by rw [View.element?, kinds_view hm hl]; rfl
      have hattributes : ∀ key, a.attribute? key = b.attribute? key := by
        intro key
        cases h.alike with
        | intro _ _ attribute_eq =>
          have := attribute_eq s key
          rwa [View.attribute?, View.attribute?, ha, hb] at this
      have hproperties : ∀ name, a.property? name = b.property? name := by
        intro name
        cases h.alike with
        | intro _ _ _ property_eq =>
          have := property_eq s name
          rwa [View.property?, View.property?, ha, hb] at this
      refine Appearance.same_element hk hl (hh.1.trans hh'.1.symm)
        (hh.2.trans hh'.2.symm) hattributes hproperties ?_
      rw [h.left.children_eq s n hel hn, h.right.children_eq s m hel' hm, layout, layout, htj]
      exact same_flatMap hch

theorem same_blocks {is js : List Instance} (hlength : is.length = js.length)
    (h : ∀ (k : Nat) i j, is[k]? = some i → js[k]? = some j → Same d e i.block j.block) :
    Same d e (blockAll is) (blockAll js) := by
  induction is generalizing js with
  | nil =>
    cases js with
    | nil => exact same_nil
    | cons j js => cases hlength
  | cons i is ih =>
    cases js with
    | nil => cases hlength
    | cons j js =>
      have hrest : is.length = js.length := by simpa using hlength
      rw [blockAll, blockAll]
      apply Same.append
      · exact h 0 i j rfl rfl
      · exact ih hrest fun k i' j' hi hj => h (k + 1) i' j' hi hj

/-- An anchor stands after the instances of its group. -/
theorem Resembles.same_anchor (h : Resembles c d e i j) (ht : i.template.Sound) {dir : Directive}
    {name : String} {s : Slot} {v : Var} {g : Group}
    (hx : .reconcile dir name s v g ∈ i.template.computations)
    (hnested : ∀ is ∈ i.groups, ∀ js ∈ j.groups, ∀ i' ∈ is, ∀ j' ∈ js,
      (i'.view d).Alike (j'.view e) → Same d e i'.block j'.block) :
    Same d e (i.slotBlock s) (j.slotBlock s) := by
  have htj := h.template_eq
  obtain ⟨⟨q, hs⟩, _, hg⟩ := ht.fits _ hx
  obtain ⟨n, k, hn, hk, hh⟩ := h.left.exists_node hs
  obtain ⟨m, l, hm, hl, hh'⟩ := h.right.exists_node (htj ▸ hs)
  have hgi : i.groups[g]? = some _ := List.getElem?_eq_getElem (h.left.groups_length ▸ hg)
  have hgj : j.groups[g]? = some _ :=
    List.getElem?_eq_getElem (by rw [h.right.groups_length, htj]; exact hg)
  have ha : (s, g) ∈ i.template.anchored := Template.mem_anchored.mpr ⟨_, _, _, hx⟩
  rw [slotBlock_anchor ht ha hgi hn, slotBlock_anchor (htj ▸ ht) (htj ▸ ha) hgj hm]
  apply Same.append
  · cases h.alike with
    | intro _ _ _ _ length_eq nested =>
      refine same_blocks ?_ fun k i' j' hi' hj' => ?_
      · simpa using length_eq g _ _ (groups_view hgi) (groups_view hgj)
      · refine hnested _ (List.mem_of_getElem? hgi) _ (List.mem_of_getElem? hgj) _
          (List.mem_of_getElem? hi') _ (List.mem_of_getElem? hj') ?_
        exact nested g _ _ (groups_view hgi) (groups_view hgj) k _ _ (by simp [hi']) (by simp [hj'])
  · cases k with
    | element | fragment => cases hh
    | text a =>
      cases l with
      | element | fragment => cases hh'
      | text b => exact h.same_content hn hk hm hl

/-- Instances in place with views that are alike look the same. -/
theorem same_block (hc : c.Built o) (hi : i.Live c d) (hj : j.Live c e)
    (h : (i.view d).Alike (j.view e)) : Same d e i.block j.block := by
  induction hi generalizing j with
  | @intro i hs _ ih =>
    have hr : Resembles c d e i j := ⟨hs, hj.stands, h⟩
    have ht := hc.sound.template _ hs.template_mem
    have hslot : ∀ n s : Nat, s < i.template.seeds.length → i.template.seeds.length - s ≤ n →
        Same d e (i.slotBlock s) (j.slotBlock s) := by
      intro n
      induction n with
      | zero =>
        intro s hlt hle
        omega
      | succ n ihn =>
        intro s hlt hle
        cases hseed : i.template.seeds[s] with
        | text q content =>
          exact hr.same_text ht (by rw [List.getElem?_eq_getElem hlt, hseed])
        | element q tag svg =>
          refine hr.same_element ht (by rw [List.getElem?_eq_getElem hlt, hseed]) fun s' hs' => ?_
          have hlater := (ht.parent_lt s s' (Template.mem_slotsAt.mp hs')).1
          have hlt' := ht.slot_lt hs'
          exact ihn s' hlt' (by omega)
        | anchor q =>
          have ha : i.template.HasAnchor s := ⟨q, by rw [List.getElem?_eq_getElem hlt, hseed]⟩
          obtain ⟨dir, name, v, g, hx⟩ := hc.exists_reconcile hs.template_mem ha
          exact hr.same_anchor ht hx fun is his js hjs i' hi' j' hj' =>
            ih is his i' hi' (hj.nested js hjs j' hj')
    rw [block_eq, block_eq, layout, layout, hr.template_eq]
    exact same_flatMap fun s hs => hslot _ s (ht.slot_lt hs) (Nat.le_refl _)

end Instance
end Stencil
