import Stencil.Proofs.Binding.Calls
import Stencil.Proofs.Template.Furnishing
import Stencil.Proofs.Template.Keeping

/-! Names that a script uses outside of literals: the properties that are set, and the
segments on the way to a variable. In the templates of a catalog all of them are
identifiers. -/
namespace Stencil
open Binding

/-- The names of properties that a computation sets. -/
def Computation.spliced : Computation → List String
  | .setProperty _ name _ => [name]
  | .unlessFalse _ _ _ setter => setter.spliced
  | _ => []

/-- The segments from the data of a route to its variables. -/
def Binding.Route.spliced (r : Route) : List String := r.bindings.flatMap (·.2)

def Template.spliced (t : Template) : List String :=
  t.computations.flatMap Computation.spliced ++ t.routes.flatMap Route.spliced

def Catalog.spliced (c : Catalog) : List String := c.templates.flatMap Template.spliced

theorem Vocabulary.isIdentifier_of_isProperty {tag name : String} (h : isProperty tag name = true) :
    isIdentifier name = true := by
  have hcommon : commonProperties.all isIdentifier = true := by decide +kernel
  have htag : (tagProperties.all fun p => p.2.all isIdentifier) = true := by decide +kernel
  simp only [List.all_eq_true] at hcommon htag
  rw [isProperty, Bool.or_eq_true] at h
  rcases h with h | h
  · exact hcommon name (List.contains_iff_mem.mp h)
  · obtain ⟨p, hp, hname⟩ := List.any_eq_true.mp h
    rw [Bool.and_eq_true] at hname
    exact htag p hp name (List.contains_iff_mem.mp hname.2)

namespace Draft

/-- The index is made by calls, and properties are identifiers. -/
structure Spliceable (d : Draft) : Prop where
  accounts : ∃ bound readings met, Index.Accounts bound readings met d.index
  isIdentifier : ∀ x ∈ d.index.computations, ∀ s ∈ x.spliced, isIdentifier s = true

theorem spliced_attributeSetter {tag : String} {svg : Bool} {s : Slot} {name : String} {bare : Bool}
    {value : Interpolation} {x : String}
    (h : x ∈ (attributeSetter tag svg s name bare value).spliced) : isIdentifier x = true := by
  have hsetter : x ∈ (setter tag svg s name value).spliced := by
    rw [attributeSetter_eq] at h
    split at h
    · split at h <;> exact h
    · exact h
  unfold setter at hsetter
  split at hsetter
  · rename_i hp
    rw [List.mem_singleton.mp hsetter]
    rw [Bool.and_eq_true] at hp
    exact Vocabulary.isIdentifier_of_isProperty hp.2
  · cases hsetter

theorem Spliceable.compute {d : Draft} (h : d.Spliceable) (ss : List Segment)
    {build : Interpolation → Computation}
    (hbuild : ∀ value, ∀ s ∈ (build value).spliced, Binding.isIdentifier s = true) :
    (d.compute ss build).Spliceable where
  accounts := by
    obtain ⟨_, _, _, hacc⟩ := h.accounts
    exact ⟨_, _, _, (hacc.run (.gather ss build)).1⟩
  isIdentifier x hx := by
    rw [Draft.compute, Index.computations_gather, List.mem_append] at hx
    rcases hx with hx | hx
    · exact h.isIdentifier x hx
    · rw [List.mem_singleton.mp hx]
      exact hbuild _

theorem kept_spliceable : Kept Spliceable where
  empty := ⟨⟨[], [], [], Index.accounts_empty⟩, fun x hx => by cases hx⟩
  plant _ h := ⟨h.accounts, h.isIdentifier⟩
  wire _ h := ⟨h.accounts, h.isIdentifier⟩
  append _ _ h := ⟨h.accounts, h.isIdentifier⟩
  setText ss _ h := h.compute ss fun _ s hs => by cases hs
  setAttribute ss _ _ _ _ _ h := h.compute ss fun _ _ hs => spliced_attributeSetter hs
  addAnchor {d} dir name path parent h := by
    obtain ⟨_, _, _, hacc⟩ := h.accounts
    refine ⟨⟨_, _, _, (hacc.assign path).1.record _ [path]⟩, fun x hx s hs => ?_⟩
    have hx : x ∈ (d.index.assign path).2.computations ++ [.reconcile dir name _ _ _] := hx
    rw [Index.computations_assign, List.mem_append] at hx
    rcases hx with hx | hx
    · exact h.isIdentifier x hx s hs
    · rw [List.mem_singleton.mp hx] at hs
      cases hs

end Draft

/-- What lies on the way to a variable is part of a path. -/
theorem Binding.Index.Accounts.isIdentifier {α : Type} {ix : Index α} {bound met : List Path}
    {readings : List (List Path)} (h : Accounts bound readings met ix) {r : Route}
    (hr : r ∈ ix.routes) {s : String} (hs : s ∈ r.spliced) : isIdentifier s = true := by
  obtain ⟨keys, _, _, _, hroutes⟩ := h.exists_keys
  obtain ⟨b, hb, hs⟩ := List.mem_flatMap.mp hs
  obtain ⟨ss, hdispatch⟩ : ∃ ss, Dispatches bound.eraseDups.idxOf bound readings ss r := by
    obtain ⟨k, hk⟩ := List.getElem?_of_mem hr
    obtain ⟨hlt, rfl⟩ := List.getElem?_eq_some_iff.mp hk
    exact ⟨_, hroutes.get (hroutes.length_eq ▸ hlt) hlt⟩
  obtain ⟨q, _, rfl⟩ := List.mem_map.mp (hdispatch.bindings_perm.subset hb)
  exact q.isIdentifier_of_mem s (List.mem_of_mem_drop hs)

/-- Whatever trees are compiled, all that is used outside of literals are identifiers. -/
theorem Workshop.isIdentifier_of_spliced (calls : List (Markup.Node × String)) {s : String}
    (hs : s ∈ (compileAll calls {}).catalog.spliced) : isIdentifier s = true := by
  obtain ⟨t, ht, hs⟩ := List.mem_flatMap.mp hs
  obtain ⟨d, hd, heq⟩ := Draft.kept_spliceable.of_compileAll calls t ht
  rw [heq] at hs
  rcases List.mem_append.mp hs with hs | hs
  · obtain ⟨x, hx, hs⟩ := List.mem_flatMap.mp hs
    exact hd.isIdentifier x hx s hs
  · obtain ⟨r, hr, hs⟩ := List.mem_flatMap.mp hs
    obtain ⟨_, _, _, hacc⟩ := hd.accounts
    exact hacc.isIdentifier hr hs

end Stencil
