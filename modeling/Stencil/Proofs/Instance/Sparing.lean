import Stencil.Proofs.Instance.Writing

/-! Sparing. A group whose computation does not run is passed by: its instances stay what
they are, and so do all nodes that they own, whatever is rendered beside them under the
same parent. Data of which no route knows a key changes nothing at all. -/
namespace Stencil
open Binding Document

namespace Instance

/-- From `i` to `j` the group `g` was passed by: it is the same, and apart from the node `p`
where the instance stands only what it owns beside the group has changed. -/
structure PassedBy (g : Group) (p : Nat) (d e : Document) (i j : Instance) : Prop where
  groups_eq : j.groups[g]? = i.groups[g]?
  fresh : ∀ x : Nat, x ∈ j.others g → x ∈ i.others g ∨ d.size ≤ x
  changes : ChangesOnly (fun x => x ∈ i.others g ∨ x = p) d e

namespace PassedBy

variable {g : Group} {p : Nat} {d e f : Document} {i j k : Instance}

theorem refl (g : Group) (p : Nat) (d : Document) (i : Instance) : PassedBy g p d d i i :=
  ⟨rfl, fun _ hx => .inl hx, .refl _ d⟩

theorem trans (h : PassedBy g p d e i j) (h' : PassedBy g p e f j k) : PassedBy g p d f i k where
  groups_eq := h'.groups_eq.trans h.groups_eq
  fresh x hx := by
    rcases h'.fresh x hx with hx | hx
    · exact h.fresh x hx
    · exact .inr (Nat.le_trans h.changes.size_le hx)
  changes := by
    refine h.changes.trans h'.changes fun n hn hx => ?_
    rcases hx with hx | hx
    · rcases h.fresh n hx with hx | hx
      · exact .inl hx
      · omega
    · exact .inr hx

/-- The nodes of the instances in the group are untouched. -/
theorem get?_eq {c : Catalog} {pre post : List NodeId} (h : PassedBy g p d e i j)
    (hi : i.Placed c d p pre post) {is : List Instance} (hg : i.groups[g]? = some is) :
    ∀ x ∈ ownedAll is, e.get? x = d.get? x := by
  intro x hx
  have hbody : x ∈ i.body := (body_perm hg).mem_iff.mpr (List.mem_append_left _ hx)
  refine h.changes.get?_eq x (hi.live.lt_size x (body_subset_owned i hbody)) ?_
  rintro (hm | rfl)
  · exact (hi.nodup_split hg).2.2 x hm hx
  · exact hi.not_mem hbody

end PassedBy

end Instance

namespace Outcome

open Instance

/-- Nothing has failed, the instance is renewed, and the group was passed by. -/
def Passes (c : Catalog) (g : Group) (d : Document) (i : Instance) (p : Nat)
    (pre post : List NodeId) (o : Outcome Instance) : Prop :=
  ∃ j sc, o = .ok j sc ∧ Renewed c d sc.document i j p pre post ∧ PassedBy g p d sc.document i j

variable {c : Catalog} {g : Group} {d : Document} {i : Instance} {p : Nat} {pre post : List NodeId}
  {o : Outcome Instance}

theorem Passes.andThen {f : Instance → Scene → Outcome Instance} (h : o.Passes c g d i p pre post)
    (hf : ∀ j sc, j.Placed c sc.document p pre post → j.template = i.template →
      (f j sc).Passes c g sc.document j p pre post) : (o.andThen f).Passes c g d i p pre post := by
  obtain ⟨j, sc, rfl, hr, hp⟩ := h
  obtain ⟨k, sc', hk, hr', hp'⟩ := hf j sc hr.placed hr.template_eq
  exact ⟨k, sc', hk, hr.trans hr', hp.trans hp'⟩

theorem passes_each {α : Type} {f : α → Instance → Scene → Outcome Instance} {t : Template}
    (as : List α) (hf : ∀ a ∈ as, ∀ j sc, j.Placed c sc.document p pre post → j.template = t →
      (f a j sc).Passes c g sc.document j p pre post) :
    ∀ i sc, i.Placed c sc.document p pre post → i.template = t →
      (each f as i sc).Passes c g sc.document i p pre post := by
  induction as with
  | nil => exact fun i sc hp _ => ⟨i, sc, rfl, hp.renewed, .refl ..⟩
  | cons a as ih =>
    intro i sc hp ht
    refine (hf a List.mem_cons_self i sc hp ht).andThen fun j sc' hj hjt => ?_
    exact ih (fun b hb => hf b (List.mem_cons_of_mem _ hb)) j sc' hj (hjt.trans ht)

end Outcome

namespace Instance

variable {c : Catalog} {ts : List Template} {upd : Updater} {vupd : View → Json → View}
  {g : Group} {sc sc' : Scene} {i j : Instance} {p : Nat} {pre post : List NodeId}

/-- What renders no group changes only the nodes of the instance. -/
theorem Effect.passedBy {cells : List Cell} (h : i.Placed c sc.document p pre post)
    (htext : ∀ s, .text s ∈ cells → i.template.HasText s) (hgroup : ∀ g, .group g ∉ cells)
    (he : Effect c upd cells i sc j sc') : PassedBy g p sc.document sc'.document i j := by
  have hpass : ∀ {s : Slot} {n : NodeId} {e : Document}, i.nodes[s]? = some n →
      ChangesOnly (fun m => m = n) sc.document e → PassedBy g p sc.document e i i := by
    intro s n e hn hch
    refine ⟨rfl, fun _ hx => .inl hx, hch.mono fun m _ hm => .inl (mem_others.mpr (.inl ?_))⟩
    exact hm ▸ List.mem_of_getElem? hn
  cases he with
  | @text s n content _ cell node set =>
    obtain ⟨q, seed, hseed⟩ := htext s cell
    obtain ⟨k, hk, hholds⟩ := h.live.stands.holds s _ n hseed node
    cases k with
    | text y =>
      rw [setText_text _ hk] at set
      exact hpass node (Except.ok.inj set ▸ .setKind ..)
    | element | fragment => cases hholds
  | element _ node edit => exact hpass node (.editElement edit)
  | group cell => exact absurd cell (hgroup _)

theorem Placed.passes_reconcile (hc : c.Sound) (hu : Updater.Follows c ts upd vupd)
    (h : i.Placed c sc.document p pre post) (ht : i.template.Sound) {dir : Directive}
    {name : String} {s v g' : Nat} (hx : .reconcile dir name s v g' ∈ i.template.computations)
    {t : Template} (hname : c.get? name = some t) (hts : t ∈ ts) (hne : g' ≠ g)
    (ho : compute c upd (.reconcile dir name s v g') i sc = .ok j sc') :
    PassedBy g p sc.document sc'.document i j := by
  obtain ⟨is, n, q, a, b, js, sc₁, hs, hjs, hb, _⟩ := h.exists_reconciled hc hu ht hx hname hts
  cases ho.symm.trans hjs
  have hmem : ∀ x ∈ ownedAll is, x ∈ i.others g := fun x hx =>
    mem_others.mpr (.inr ⟨g', is, hne, hs.group, hx⟩)
  refine ⟨?_, fun x hx => ?_, hb.changes.mono fun x _ hx => ?_⟩
  · rw [hs.getElem?_withGroup, if_neg hne]
  · rcases mem_others.mp hx with hx | ⟨g₁, is₁, hg₁, his₁, hx⟩
    · exact .inl (mem_others.mpr (.inl hx))
    · rw [hs.getElem?_withGroup] at his₁
      split at his₁
      · cases his₁
        exact (hb.fresh x hx).imp (hmem x) id
      · exact .inl (mem_others.mpr (.inr ⟨g₁, is₁, hg₁, his₁, hx⟩))
  · rcases hx with hx | rfl
    · exact .inl (hmem x hx)
    · -- the holder of the group is where the instance stands, or an element of its own
      obtain ⟨_, _, _, _, _, _, hq, _⟩ := hs.holder
      cases hq with
      | root => exact .inr rfl
      | slot _ hn => exact .inl (mem_others.mpr (.inl (List.mem_of_getElem? hn)))

theorem Placed.passes_compute (hc : c.Sound) (hu : Updater.Follows c ts upd vupd)
    (h : i.Placed c sc.document p pre post) (ht : i.template.Sound)
    (hnested : ∀ dir name s v g, .reconcile dir name s v g ∈ i.template.computations →
      ∃ t ∈ ts, c.get? name = some t) {x : Computation} (hx : x ∈ i.template.computations)
    (hg : .group g ∉ x.cells) : (compute c upd x i sc).Passes c g sc.document i p pre post := by
  have hfit := ht.fits x hx
  obtain ⟨j, sc', hj, hr, _⟩ := h.renews_compute hc hu ht hnested x hfit (.inr hx)
  refine ⟨j, sc', hj, hr, ?_⟩
  by_cases hgroup : ∃ g', .group g' ∈ x.cells
  · obtain ⟨g', hg'⟩ := hgroup
    obtain ⟨dir, name, s, v, rfl⟩ := View.group_of_mem_cells hfit hg'
    obtain ⟨t, hts, hname⟩ := hnested dir name s v g' hx
    exact h.passes_reconcile hc hu ht hx hname hts (fun he => hg (he ▸ hg')) hj
  · exact (effect_compute hj).passedBy h (fun s hs => View.hasText_of_mem_cells hfit hs)
      (not_exists.mp hgroup)

theorem Placed.passes_takeField (hc : c.Sound) (hu : Updater.Follows c ts upd vupd)
    (h : i.Placed c sc.document p pre post) (ht : i.template.Sound)
    (hnested : ∀ dir name s v g, .reconcile dir name s v g ∈ i.template.computations →
      ∃ t ∈ ts, c.get? name = some t) {f : String × Json}
    (hg : ∀ x, i.template.RunsFor f.1 x → .group g ∉ x.cells) :
    (takeField c upd f i sc).Passes c g sc.document i p pre post := by
  rw [takeField]
  cases hroute : i.template.route? f.1 with
  | none => exact ⟨i, _, rfl, h.renewed, .refl ..⟩
  | some r =>
    have hr : r ∈ i.template.routes := List.mem_of_find?_eq_some hroute
    have hbind : (Outcome.each (bind f.2) r.bindings i sc).Passes c g sc.document i p pre post := by
      refine Outcome.passes_each (t := i.template) r.bindings
        (fun b hb j sc' hj hjt => ?_) i sc h rfl
      obtain ⟨k, sc₁, hk, hrenewed, _⟩ := hj.renews_bind f.2 b (hjt ▸ ht.binding_lt r hr b hb)
      refine ⟨k, sc₁, hk, hrenewed, ?_⟩
      unfold bind at hk
      split at hk <;> cases hk
      exact ⟨rfl, fun _ hx => .inl hx, .refl ..⟩
    refine hbind.andThen fun j sc' hj hjt => ?_
    refine Outcome.passes_each (t := i.template) r.computations (fun k hk j sc' hj hjt => ?_) j sc'
      hj hjt
    have hlt : k < j.template.computations.length := hjt ▸ ht.computation_lt r hr k hk
    rw [runComputation, List.getElem?_eq_getElem hlt]
    refine hj.passes_compute hc hu (hjt ▸ ht) (hjt ▸ hnested) (List.getElem_mem hlt) ?_
    exact hg _ ⟨r, hroute, k, hk, hjt ▸ List.getElem?_eq_getElem hlt⟩

/-- An update passes by a group whose computation does not run. -/
theorem Placed.passes_update (hc : c.Sound) (h : i.Placed c sc.document p pre post) {data : Json}
    (hg : ∀ key ∈ data.keys, ∀ x, i.template.RunsFor key x → .group g ∉ x.cells) :
    (update c i data sc).Passes c g sc.document i p pre post := by
  have hst := h.live.stands
  have ht := hc.template _ hst.template_mem
  have htake := Catalog.mem_take hst.template_mem
  rw [update, updateTo, updateWith, mount_of_isSome hst.isSome_root]
  cases data with
  | obj fields =>
    refine Outcome.passes_each (t := i.template) fields (fun f hf j sc' hj hjt => ?_) i sc h rfl
    exact hj.passes_takeField hc (updateTo_follows hc c.size) (hjt ▸ ht)
      (fun _ _ _ _ _ hx => hc.exists_nested htake (hjt ▸ hx))
      (hjt ▸ hg f.1 (List.mem_map_of_mem hf))
  | null | bool | num | str | arr => exact ⟨i, _, rfl, h.renewed, .refl ..⟩

/-- Data without keys that have a route changes nothing on a mounted instance. -/
theorem update_of_no_route (hroot : i.root.isSome) {data : Json}
    (h : ∀ key ∈ data.keys, i.template.route? key = none) :
    ∃ log, i.update c data sc = .ok i { sc with log := log } := by
  rw [update, updateTo, updateWith, mount_of_isSome hroot]
  cases data with
  | obj fields =>
    show ∃ log, Outcome.each _ fields i sc = _
    induction fields generalizing sc with
    | nil => exact ⟨sc.log, rfl⟩
    | cons f fields ih =>
      obtain ⟨log, hlog⟩ := @ih (sc.tell (.unusedKey f.1)) fun key hkey =>
        h key (List.mem_cons_of_mem _ hkey)
      refine ⟨log, ?_⟩
      rw [Outcome.each, takeField, h f.1 List.mem_cons_self]
      exact hlog
  | null | bool | num | str | arr => exact ⟨_, rfl⟩

end Instance
end Stencil
