import Stencil.Proofs.Document.Forest
import Stencil.Proofs.Instance.Updating
import Stencil.Proofs.Template.Building

/-! Seats. An instance fills its own fragment until it is put elsewhere; then it stands in
a container that is not its own, and its fragment stays behind empty. It keeps its seat
when it is updated, when another instance is updated in the same container, and under
every operation of the host that leaves its nodes alone. -/
namespace Stencil
open Document Instance

namespace Instance

/-- Where an instance stands: in its own fragment, or in a container with its fragment empty. -/
inductive Seated (c : Catalog) (d : Document) (i : Instance) : Option NodeId → Prop
  | alone {r : Nat} (root : i.root = some r) (placed : i.Placed c d r [] []) : Seated c d i none
  | hosted {p : Nat} {pre post : List NodeId} (placed : i.Placed c d p pre post)
      (lt_size : p < d.size) (not_mem : p ∉ i.owned)
      (empty : ∀ r, i.root = some r → d.children r = []) : Seated c d i (some p)

variable {c : Catalog} {d e : Document} {i j : Instance} {host : Option NodeId}

theorem root_mem_owned {r : NodeId} (h : i.root = some r) : r ∈ i.owned := by
  rw [owned_eq, h]
  simp

theorem Renewed.owned_fresh {p : Nat} {pre post : List NodeId} (h : Renewed c d e i j p pre post) :
    ∀ x : Nat, x ∈ j.owned → x ∈ i.owned ∨ d.size ≤ x := by
  intro x hx
  rw [owned_eq, h.root_eq] at hx
  rcases List.mem_append.mp hx with hx | hx
  · exact .inl (by rw [owned_eq]; exact List.mem_append_left _ hx)
  · exact (h.fresh x hx).imp (body_subset_owned _) id

/-- Only an instance of a template without root slots has an empty block. -/
theorem Live.slotsAt_root_eq_nil (ht : i.template.Sound) (h : i.Live c d) (hb : i.block = []) :
    i.template.slotsAt .root = [] := by
  refine List.eq_nil_iff_forall_not_mem.mpr fun s hs => ?_
  have hlt : s < i.nodes.length := h.stands.nodes_length ▸ ht.slot_lt hs
  have hm : i.nodes[s] ∈ i.block := by
    rw [block_eq, layout, List.mem_flatMap]
    exact ⟨s, hs, mem_slotBlock.mpr (.inl (List.getElem?_eq_getElem hlt))⟩
  rw [hb] at hm
  cases hm

/-- Instances over catalogs compiled from sources show at least one node. -/
theorem Live.block_ne_nil {o : Origin} (hc : c.Built o) (ho : o.single) (h : i.Live c d) :
    i.block ≠ [] := by
  intro hempty
  have hslots := h.slotsAt_root_eq_nil (hc.sound.template _ h.stands.template_mem) hempty
  obtain ⟨s, hs⟩ := hc.exists_rootSlot ho h.stands.template_mem
  rw [← Template.rootSlots_eq, hs] at hslots
  cases hslots

/-- What stands in an instance's nodes is its own. -/
theorem Live.children_mem (hc : c.Sound) (hd : d.Linked) (h : i.Live c d) :
    ∀ y ∈ i.body, ∀ x ∈ d.children y, x ∈ i.body := by
  induction h with
  | @intro i hs hn ih =>
    have ht := hc.template _ hs.template_mem
    intro y hy x hx
    rcases mem_body.mp hy with hy | ⟨is, his, j, hj, hy⟩
    · obtain ⟨s, hys⟩ := List.getElem?_of_mem hy
      have hlt : s < i.template.seeds.length :=
        hs.nodes_length ▸ (List.getElem?_eq_some_iff.mp hys).1
      obtain ⟨k, hk, hh⟩ := hs.holds s _ y (List.getElem?_eq_getElem hlt) hys
      cases k with
      | text content =>
        rw [hd.children_text y content hk] at hx
        cases hx
      | fragment => cases hseed : i.template.seeds[s] <;> rw [hseed] at hh <;> cases hh
      | element el =>
        have hel : i.template.HasElement s := by
          cases hseed : i.template.seeds[s] with
          | element q tag svg => exact ⟨q, tag, svg, by rw [List.getElem?_eq_getElem hlt, hseed]⟩
          | text => rw [hseed] at hh; cases hh
          | anchor => rw [hseed] at hh; cases hh
        rw [hs.children_eq s y hel hys, layout, List.mem_flatMap] at hx
        obtain ⟨s', _, hx⟩ := hx
        exact slotBlock_subset_body hx
    · obtain ⟨g, hg⟩ := List.getElem?_of_mem his
      have hglt : g < i.template.groupCount :=
        hs.groups_length ▸ (List.getElem?_eq_some_iff.mp hg).1
      obtain ⟨s, ha⟩ := ht.exists_anchor hglt
      obtain ⟨dir, name, v, hx'⟩ := Template.mem_anchored.mp ha
      rw [owned_eq, List.mem_append] at hy
      rcases hy with hy | hy
      · have hroot : j.root = some y := by simpa using hy
        rw [(hs.nested dir name s v g is hx' hg j hj).2 y hroot] at hx
        cases hx
      · exact mem_body.mpr (.inr ⟨is, his, j, hj, body_subset_owned j (ih is his j hj y hy x hx)⟩)

namespace Seated

theorem exists_placed (h : i.Seated c d host) : ∃ p pre post, (host <|> i.root) = some p ∧
    (host = none → pre = [] ∧ post = []) ∧ i.Placed c d p pre post := by
  cases h with
  | alone root placed => exact ⟨_, [], [], root, fun _ => ⟨rfl, rfl⟩, placed⟩
  | hosted placed => exact ⟨_, _, _, rfl, nofun, placed⟩

theorem linked (h : i.Seated c d host) : d.Linked := by
  obtain ⟨_, _, _, _, _, hp⟩ := h.exists_placed
  exact hp.linked

theorem live (h : i.Seated c d host) : i.Live c d := by
  obtain ⟨_, _, _, _, _, hp⟩ := h.exists_placed
  exact hp.live

theorem nodup (h : i.Seated c d host) : i.owned.Nodup := by
  obtain ⟨_, _, _, _, _, hp⟩ := h.exists_placed
  exact hp.nodup

theorem root_not_mem (h : i.Seated c d host) {r : NodeId} (hr : i.root = some r) : r ∉ i.body := by
  obtain ⟨_, _, _, _, _, hp⟩ := h.exists_placed
  exact hp.root_not_mem hr

theorem host_lt (h : i.Seated c d host) {p : Nat} (hp : host = some p) : p < d.size := by
  cases h with
  | alone => cases hp
  | hosted _ hlt => exact Option.some.inj hp ▸ hlt

/-- What stands in the nodes of an instance is its own. -/
theorem children_mem (hc : c.Sound) (h : i.Seated c d host) {x y : NodeId} (hy : y ∈ i.owned)
    (hx : x ∈ d.children y) : x ∈ i.body := by
  rw [owned_eq, List.mem_append, Option.mem_toList] at hy
  rcases hy with hroot | hy
  · cases h with
    | alone root placed =>
      cases root.symm.trans hroot
      rw [placed.children_eq] at hx
      exact block_subset_body _ x (by simpa using hx)
    | hosted _ _ _ empty =>
      rw [empty y hroot] at hx
      cases hx
  · exact h.live.children_mem hc h.linked y hy x hx

/-- A change that keeps the nodes of an instance, and its block in its host, keeps its seat. -/
theorem frame (h : i.Seated c d host) (he : e.Linked) (hsize : d.size ≤ e.size)
    (hk : ∀ x ∈ i.owned, d.KindAlike e x) (hch : ∀ x ∈ i.owned, e.children x = d.children x)
    (hhost : ∀ p, host = some p → ∀ pre post, d.children p = pre ++ i.block ++ post →
      ∃ pre' post', e.children p = pre' ++ i.block ++ post') : i.Seated c e host := by
  have hlive : i.Live c e := h.live.alike hk fun x hx => hch x (body_subset_owned _ hx)
  cases h with
  | alone root placed =>
    refine .alone root ⟨he, hlive, placed.nodup, placed.not_mem, ?_⟩
    rw [hch _ (root_mem_owned root)]
    exact placed.children_eq
  | hosted placed lt not_mem empty =>
    obtain ⟨pre', post', hch'⟩ := hhost _ rfl _ _ placed.children_eq
    refine .hosted ⟨he, hlive, placed.nodup, placed.not_mem, hch'⟩ (Nat.lt_of_lt_of_le lt hsize)
      not_mem fun r hr => ?_
    rw [hch r (root_mem_owned hr)]
    exact empty r hr

/-- New nodes change nothing for an instance. -/
theorem of_old (h : i.Seated c d host) (he : e.Linked) (hsize : d.size ≤ e.size)
    (hold : ∀ x : Nat, x < d.size → e.get? x = d.get? x) : i.Seated c e host := by
  refine h.frame he hsize (fun x hx => .of_eq (kind?_of_get? (hold x (h.live.lt_size x hx))))
    (fun x hx => children_of_get? (hold x (h.live.lt_size x hx))) fun p hp pre post hpp =>
      ⟨pre, post, ?_⟩
  rw [children_of_get? (hold p (h.host_lt hp))]
  exact hpp

/-! ## Updates -/

/-- An instance renewed where it stands has the seat it had. -/
theorem renewed (h : i.Seated c d host) {p : Nat} {pre post : List NodeId}
    (hp : (host <|> i.root) = some p) (hnone : host = none → pre = [] ∧ post = [])
    (hr : Renewed c d e i j p pre post) : j.Seated c e host := by
  cases h with
  | alone root placed =>
    obtain ⟨rfl, rfl⟩ := hnone rfl
    exact .alone (hr.root_eq.trans hp) hr.placed
  | hosted placed lt not_mem empty =>
    cases hp
    refine .hosted hr.placed (Nat.lt_of_lt_of_le lt hr.changes.size_le) (fun hm => ?_)
      fun r hjr => ?_
    · rcases hr.owned_fresh p hm with hm | hm
      · exact not_mem hm
      · exact Nat.not_lt_of_le hm lt
    · have hir : i.root = some r := hr.root_eq ▸ hjr
      have hrm := root_mem_owned hir
      rw [hr.changes.children_eq (placed.live.lt_size r hrm) ?_]
      · exact empty r hir
      · rintro (hm | rfl)
        · exact placed.root_not_mem hir hm
        · exact not_mem hrm

/-- An update succeeds, and renews the instance where it stands. -/
theorem exists_renewed (hc : c.Sound) {sc : Scene} (h : i.Seated c sc.document host) (data : Json) :
    ∃ j sc' p pre post, i.update c data sc = .ok j sc' ∧ (host <|> i.root) = some p ∧
      i.Placed c sc.document p pre post ∧
      Renewed c sc.document sc'.document i j p pre post ∧ j.Seated c sc'.document host ∧
      j.view sc'.document = View.updateTo c (c.size + 1) (i.view sc.document) data := by
  obtain ⟨p, pre, post, hp, hnone, hpl⟩ := h.exists_placed
  obtain ⟨j, sc', hj, hr, hview⟩ := hpl.renews_update hc data
  exact ⟨j, sc', p, pre, post, hj, hp, hpl, hr, h.renewed hp hnone hr, hview⟩

/-- Of two stretches of a list that share nothing, one stands before the other. -/
private theorem stretch_apart {α : Type} {a x b a' y b' : List α}
    (h : a ++ x ++ b = a' ++ y ++ b') (hx : x ≠ []) (hy : y ≠ []) (hd : ∀ z ∈ y, z ∉ x) :
    (∃ m, a = a' ++ y ++ m) ∨ ∃ m, b = m ++ y ++ b' := by
  have hhead : ∀ {xs ys zs ws : List α}, xs ≠ [] → ys ≠ [] → xs ++ zs = ys ++ ws →
      ∃ z ∈ xs, z ∈ ys := by
    intro xs ys zs ws hxs hys he
    obtain ⟨z, xs, rfl⟩ := List.exists_cons_of_ne_nil hxs
    obtain ⟨z', ys, rfl⟩ := List.exists_cons_of_ne_nil hys
    rw [List.cons_append, List.cons_append, List.cons.injEq] at he
    exact ⟨z, List.mem_cons_self, he.1 ▸ List.mem_cons_self⟩
  rw [List.append_assoc, List.append_assoc, List.append_eq_append_iff] at h
  rcases h with ⟨m, rfl, h⟩ | ⟨m, rfl, h⟩ <;> rw [List.append_eq_append_iff] at h
  · rcases h with ⟨m', rfl, h⟩ | ⟨m', rfl, h⟩
    · exact .inr ⟨m', by rw [h, List.append_assoc]⟩
    · by_cases hm : m' = []
      · subst hm
        exact .inr ⟨[], by simpa using h.symm⟩
      · obtain ⟨z, hz, hz'⟩ := hhead hy hm h
        exact absurd (List.mem_append_right _ hz') (hd z hz)
  · rcases h with ⟨m', rfl, h⟩ | ⟨m', rfl, h⟩
    · exact .inl ⟨m', by simp⟩
    · by_cases hm : m' = []
      · subst hm
        exact .inl ⟨[], by simp⟩
      · obtain ⟨z, hz, hz'⟩ := hhead hx hm h
        exact absurd hz (hd z (List.mem_append_right _ hz'))

/-- When an instance is renewed where it stands, another one that owns none of the nodes
concerned keeps its seat. -/
theorem beside (hc : c.Sound) {b : Instance} (hb : b.Seated c d host) {p : Nat}
    {pre post : List NodeId} (hpl : i.Placed c d p pre post)
    (hr : Renewed c d e i j p pre post) (hR : ∀ x ∈ b.owned, ¬ (x ∈ i.body ∨ x = p))
    (hhost : ∀ q, host = some q → q ∉ i.owned) : b.Seated c e host := by
  have hlt := hb.live.lt_size
  refine hb.frame hr.placed.linked hr.changes.size_le
    (fun x hx => .of_eq (hr.changes.kind?_eq (hlt x hx) (hR x hx)))
    (fun x hx => hr.changes.children_eq (hlt x hx) (hR x hx)) ?_
  intro q hq pre' post' hqc
  by_cases hqp : q = p
  · subst hqp
    -- both stand in one container
    by_cases hy : b.block = []
    · exact ⟨e.children q, [], by simp [hy]⟩
    by_cases hx : i.block = []
    · have hslots := hpl.live.slotsAt_root_eq_nil (hc.template _ hpl.live.stands.template_mem) hx
      have hj : j.block = [] := by rw [block_eq, layout, hr.template_eq, hslots, List.flatMap_nil]
      have hch := hr.placed.children_eq
      rw [hj, ← hx, ← hpl.children_eq, hqc] at hch
      exact ⟨pre', post', hch⟩
    have hd : ∀ z ∈ b.block, z ∉ i.block := fun z hz hz' =>
      hR z (body_subset_owned _ (block_subset_body _ z hz)) (.inl (block_subset_body _ z hz'))
    rcases stretch_apart (hpl.children_eq.symm.trans hqc) hx hy hd with ⟨m, rfl⟩ | ⟨m, rfl⟩
    · exact ⟨pre', m ++ j.block ++ post, by rw [hr.placed.children_eq]; simp⟩
    · exact ⟨pre ++ j.block ++ m, post', by rw [hr.placed.children_eq]; simp⟩
  · refine ⟨pre', post', ?_⟩
    rw [hr.changes.children_eq (hb.host_lt hq) ?_]
    · exact hqc
    · rintro (hm | hm)
      · exact hhost q hq (body_subset_owned _ hm)
      · exact hqp hm

/-! ## Operations of the host -/

/-- Nodes put into a list beside a stretch of it leave it a stretch. -/
theorem exists_stretch_splice (moved : List NodeId) {mark : Option NodeId}
    {pre block post : List NodeId} (hmark : ∀ m, mark = some m → m ∉ block.tail) :
    ∃ pre' post', splice moved mark (pre ++ block ++ post) = pre' ++ block ++ post' := by
  cases mark with
  | none => exact ⟨pre, post ++ moved, by simp [splice]⟩
  | some m =>
    by_cases hpre : m ∈ pre
    · obtain ⟨xs, ys, rfl, hm⟩ := List.eq_append_cons_of_mem hpre
      refine ⟨xs ++ moved ++ m :: ys, post, ?_⟩
      rw [List.append_assoc, List.append_assoc, List.cons_append, splice_append_cons _ hm]
      simp
    · cases block with
      | nil => exact ⟨splice moved (some m) (pre ++ [] ++ post), [], by simp⟩
      | cons b bs =>
        by_cases hb : m = b
        · subst hb
          refine ⟨pre ++ moved, post, ?_⟩
          rw [List.append_assoc, List.cons_append, splice_append_cons _ hpre]
          simp
        · -- all of the stretch stands before the mark
          have hall : ∀ x ∈ pre ++ b :: bs, (x != m) = true := by
            intro x hx
            rw [bne_iff_ne]
            rintro rfl
            rcases List.mem_append.mp hx with hx | hx
            · exact hpre hx
            · exact hmark x rfl ((List.mem_cons.mp hx).resolve_left hb)
          refine ⟨pre, post.takeWhile (· != m) ++ moved ++ post.dropWhile (· != m), ?_⟩
          rw [splice, List.takeWhile_append_of_pos hall, List.dropWhile_append_of_pos hall]
          simp

/-- A change of contents keeps every seat. -/
theorem setKind (h : i.Seated c d host) {x : Nat} {k k' : Kind} (hk : d.kind? x = some k)
    (ha : k.Alike k') : i.Seated c (d.setKind x k') host := by
  have hlt := lt_size_of_kind? hk
  have hlinked : (d.setKind x k').Linked := by
    refine h.linked.setKind hlt fun s hs => ?_
    subst hs
    cases ha with
    | text s s' => exact h.linked.children_text x s hk
  refine h.frame hlinked (Nat.le_of_eq (size_setKind ..).symm) (fun y _ l hl => ?_)
    (fun y _ => children_setKind ..) fun p _ pre post hp => ⟨pre, post, ?_⟩
  · rw [kind?_setKind _ hlt]
    split
    · rename_i hyx
      subst hyx
      cases hk.symm.trans hl
      exact ⟨k', rfl, ha⟩
    · exact ⟨l, hl, .refl l⟩
  · rw [children_setKind]
    exact hp

/-- A node that is not the instance's own stands in none of its nodes. -/
theorem parent?_ne (hc : c.Sound) (h : i.Seated c d host) {x y : NodeId} (hx : x ∉ i.body)
    (hy : y ∈ i.owned) : d.parent? x ≠ some y := fun hp =>
  hx (h.children_mem hc hy ((h.linked.mem_children_iff y x).mpr hp))

theorem unlink (hc : c.Sound) (h : i.Seated c d host) {x : NodeId} (hx : x ∉ i.body) :
    i.Seated c (d.unlink x) host := by
  refine h.frame (h.linked.unlink x) (Nat.le_of_eq (size_unlink ..).symm)
    (fun y _ => .of_eq (kind?_unlink ..)) (fun y hy => ?_) fun p _ pre post hp => ?_
  · rw [children_unlink, if_neg (h.parent?_ne hc hx hy)]
  · rw [children_unlink]
    split
    · have hb : i.block.filter (· != x) = i.block := List.filter_eq_self.mpr fun y hy =>
        bne_iff_ne.mpr fun hyx => hx (hyx ▸ block_subset_body i y hy)
      exact ⟨pre.filter (· != x), post.filter (· != x), by
        rw [hp, List.filter_append, List.filter_append, hb]⟩
    · exact ⟨pre, post, hp⟩

section

variable {p x : Nat} {mark : Option NodeId} (hp : p ∉ i.owned) (hx : x ∉ i.body)
  (hmark : ∀ m, mark = some m → m ∉ i.block.tail)

include hp hx hmark

theorem place (hc : c.Sound) (h : i.Seated c d host) (ha : d.Admits p x mark) :
    i.Seated c (d.place p x mark) host := by
  have hu := h.unlink hc hx
  have hsize : (d.unlink x).size = (d.place p x mark).size := by rw [size_unlink, size_place]
  refine hu.frame (h.linked.place ha) (Nat.le_of_eq hsize)
    (fun y _ => .of_eq (by rw [kind?_place, kind?_unlink])) (fun y hy => ?_)
    fun q _ pre post hq => ?_
  · rw [children_place ha, if_neg fun he : y = p => hp (he ▸ hy)]
  · rw [children_place ha]
    split
    · rw [hq]
      exact exists_stretch_splice [x] hmark
    · exact ⟨pre, post, hq⟩

/-- The children of some other node poured out leave the instance where it is. -/
theorem pour_of_ne (h : i.Seated c d host) (ha : d.Admits p x mark)
    (hne : (host <|> i.root) ≠ some x) : i.Seated c (d.pour p x mark) host := by
  refine h.frame (h.linked.pour ha) (Nat.le_of_eq (size_pour ..).symm)
    (fun y _ => .of_eq (kind?_pour ..)) (fun y hy => ?_) fun q hq pre post hqc => ?_
  · rw [children_pour ha, if_neg fun he : y = p => hp (he ▸ hy)]
    split
    · rename_i hyx
      subst hyx
      -- it can only be the fragment, which the instance has left
      rw [owned_eq, List.mem_append, Option.mem_toList] at hy
      have hroot := hy.resolve_right hx
      cases h with
      | alone => exact absurd hroot hne
      | hosted _ _ _ empty => exact (empty y hroot).symm
    · rfl
  · subst hq
    rw [children_pour ha, if_neg fun he : q = x => hne (congrArg some he)]
    split
    · rename_i hqp
      rw [hqc]
      exact exists_stretch_splice _ hmark
    · exact ⟨pre, post, hqc⟩

omit hx hmark in
/-- The instance goes along when what it stands in is poured out. -/
theorem pour_of_eq (h : i.Seated c d host) (ha : d.Admits p x mark)
    (he : (host <|> i.root) = some x) : i.Seated c (d.pour p x mark) (some p) := by
  obtain ⟨q, pre, post, hq, _, hpl⟩ := h.exists_placed
  obtain rfl : q = x := Option.some.inj (hq.symm.trans he)
  have hpx := ha.ne.symm
  have hempty : ∀ r, i.root = some r → (d.pour p q mark).children r = [] := by
    intro r hr
    rw [children_pour ha, if_neg fun he : r = p => hp (he ▸ root_mem_owned hr)]
    split
    · rfl
    · rename_i hrq
      cases h with
      | alone root => exact absurd (Option.some.inj (hr.symm.trans he)) hrq
      | hosted _ _ _ empty => exact empty r hr
  have hsplice : ∃ pre' post', (d.pour p q mark).children p = pre' ++ i.block ++ post' := by
    rw [children_pour ha, if_neg hpx, if_pos rfl, hpl.children_eq]
    cases mark with
    | none => exact ⟨d.children p ++ pre, post, by simp [splice]⟩
    | some m => exact ⟨(d.children p).takeWhile (· != m) ++ pre,
        post ++ (d.children p).dropWhile (· != m), by simp [splice]⟩
  obtain ⟨pre', post', hch⟩ := hsplice
  refine .hosted ⟨h.linked.pour ha, ?_, hpl.nodup, fun hm => hp (body_subset_owned _ hm), hch⟩ ?_ hp
    hempty
  · refine hpl.live.congr (fun y _ => kind?_pour ..) fun y hy => ?_
    have hyq : y ≠ q := fun he => hpl.not_mem (he ▸ hy)
    have hyp : y ≠ p := fun he => hp (body_subset_owned _ (he ▸ hy))
    rw [children_pour ha, if_neg hyq, if_neg hyp]
  · rw [size_pour]
    exact ha.parent_lt

theorem insertBefore (hc : c.Sound) (h : i.Seated c d host)
    (he : d.insertBefore p x mark = .ok e) :
    ∃ host', i.Seated c e host' ∧ (host' = host ∨ host' = some p) := by
  obtain ⟨ha, ⟨_, rfl⟩ | rfl | ⟨_, rfl⟩⟩ := insertBefore_cases he
  · by_cases hq : (host <|> i.root) = some x
    · exact ⟨_, h.pour_of_eq hp ha hq, .inr rfl⟩
    · exact ⟨_, h.pour_of_ne hp hx hmark ha hq, .inl rfl⟩
  · exact ⟨_, h, .inl rfl⟩
  · exact ⟨_, h.place hp hx hmark hc ha, .inl rfl⟩

end

end Seated
end Instance
end Stencil
