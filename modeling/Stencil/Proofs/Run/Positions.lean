import Stencil.Proofs.Instance.Identity
import Stencil.Proofs.Run.Troupe
import Stencil.Proofs.Template.Building

/-! Positions. The host renders a list of items before an anchor, into instances of one
template that stand there one after the other. An instance belongs to its position: while
there is an item for it, it stays the same instance and is updated with that item. The
instances at the end come and go with the number of items. -/
namespace Stencil
open Document Instance Markup

namespace View

variable {c : Catalog} {upd : View → Json → View} {name : String} {items : List Json}
  {vs : List View} {k : Nat} {x : Json}

end View

/-- Instances before an anchor that is not theirs make a row, in the parent of the anchor. -/
theorem Company.row {c : Catalog} {d : Document} {is : List Instance} (h : Company c d is)
    {name : String} (ht : ∀ i ∈ is, c.get? name = some i.template)
    (hblock : ∀ i ∈ is, i.block ≠ []) {anchor q : NodeId} {pre post : List NodeId}
    (hanchor : ∀ i ∈ is, anchor ∉ i.owned)
    (hchildren : d.children q = pre ++ is.flatMap block ++ anchor :: post) :
    Row c name d q pre (anchor :: post) is := by
  have hseat : ∀ i ∈ is, i.Seated c d (some q) ∧ q ∉ ownedAll is := by
    intro i hi
    obtain ⟨b, hb⟩ := List.exists_mem_of_ne_nil _ (hblock i hi)
    have hparent : d.parent? b = some q := by
      rw [← h.linked.mem_children_iff, hchildren]
      simp only [List.mem_append, List.mem_flatMap]
      exact .inl (.inr ⟨i, hi, hb⟩)
    obtain ⟨host, hs, hhost⟩ := h.seated i hi
    cases hs with
    | alone root placed =>
      -- then the anchor would stand in the fragment, among the nodes of the block
      cases hparent.symm.trans (placed.parent?_block b hb)
      have hm : anchor ∈ d.children q := by rw [hchildren]; simp
      rw [placed.children_eq] at hm
      exact absurd (body_subset_owned _ (block_subset_body i anchor (by simpa using hm)))
        (hanchor i hi)
    | hosted placed lt not_mem empty =>
      cases hparent.symm.trans (placed.parent?_block b hb)
      exact ⟨.hosted placed lt not_mem empty, hhost q rfl⟩
  refine ⟨h.linked, fun i hi => h.live hi, ht, fun i hi => ?_, h.nodup, fun hm => ?_, ?_⟩
  · cases (hseat i hi).1 with
    | hosted _ _ _ empty => exact empty
  · obtain ⟨i, hi, _⟩ := mem_ownedAll.mp hm
    exact (hseat i hi).2 hm
  · rw [blockAll_eq]
    exact hchildren

namespace Children

variable {c : Catalog} {name : String} {t : Template} {is : List Instance} {sc : Scene}

/-- An instance that was made for an item is mounted, and of the named template. -/
theorem Introduced.mounted {v : Json} {j : Instance} (ht : c.get? name = some t)
    (h : Introduced c (update c) name v j) : j.template = t ∧ j.phase = .mounted := by
  obtain ⟨i, sc₁, sc₂, sc₃, sc₄, hi, hj⟩ := h
  obtain ⟨t', ht', htemplate, hphase, hroot, _⟩ := Catalog.instantiate_eq_ok hi
  cases ht.symm.trans ht'
  have hk := (update_keeps c i v sc₃ hroot).continues
  rw [hj] at hk
  exact ⟨hk.template_eq.trans htemplate, hk.phase_eq.trans hphase⟩

end Children
end Stencil
