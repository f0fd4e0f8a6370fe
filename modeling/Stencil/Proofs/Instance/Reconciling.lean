import Stencil.Proofs.Instance.Mounting
import Stencil.Proofs.Instance.Row

/-! Reconciling. Whatever a directive does to the instances of a group, the row they stand
in becomes a row of one instance for each item, and the instances show what the views say.
How single instances are updated is passed in, and known only by the views it follows. -/
namespace Stencil
open Document Instance

/-- Nothing has failed, the instance is renewed and has the view `V`. -/
def Outcome.Renews (c : Catalog) (d : Document) (i : Instance) (p : Nat) (pre post : List NodeId)
    (V : View) (o : Outcome Instance) : Prop :=
  ∃ j sc, o = .ok j sc ∧ Renewed c d sc.document i j p pre post ∧ j.view sc.document = V

/-- The updater brings every instance of the templates `ts` that is in place to what
`vupd` says, and leaves the rest of the document alone. -/
def Updater.Follows (c : Catalog) (ts : List Template) (upd : Updater)
    (vupd : View → Json → View) : Prop :=
  ∀ (i : Instance) (data : Json) (sc : Scene) (p : Nat) (pre post : List NodeId),
    i.template ∈ ts → i.Placed c sc.document p pre post →
      (upd i data sc).Renews c sc.document i p pre post (vupd (i.view sc.document) data)

theorem Catalog.instantiate_eq {c : Catalog} (hc : c.Sound) {name : String} {t : Template}
    (ht : c.get? name = some t) {sc : Scene} (hl : sc.document.Linked) :
    ∃ i d, c.instantiate name sc =
        (.ok i, { sc with document := d, created := sc.created + 1 }) ∧
      Mounted c t sc.document d i := by
  have hm : t ∈ c.templates := List.mem_of_find?_eq_some ht
  obtain ⟨i, d, hi, hmount⟩ := mount_new hm (hc.template t hm) hl
  refine ⟨i, d, ?_, hmount⟩
  unfold instantiate
  rw [ht]
  simp only [hi, Outcome.ok]

theorem Instance.Mounted.gathered {c : Catalog} {name : String} {t : Template} {d e : Document}
    {i : Instance} (ht : c.get? name = some t) (h : Mounted c t d e i) :
    Row.Gathered c name d e [i] where
  linked := h.linked
  old := h.old
  kind?_eq := by
    obtain ⟨r, hr, hk⟩ := h.live.stands.root_fragment
    rw [h.root_eq] at hr
    cases hr
    exact hk
  children_eq := by simpa [blockAll] using h.children_eq
  live := by simpa using h.live
  template_eq := by simpa [h.template_eq] using ht
  root_empty j hj r hr := by
    rw [List.mem_singleton.mp hj, h.root_eq] at hr
    exact .inl (Option.some.inj hr).symm
  nodup := by simpa [ownedAll] using h.nodup
  fresh := by simpa [ownedAll] using h.fresh
  not_mem j hj := by
    rw [List.mem_singleton.mp hj]
    have := h.nodup
    rw [owned_eq, h.root_eq] at this
    exact (List.nodup_cons.mp this).1

namespace Children

variable {c : Catalog} {ts : List Template} {upd : Updater} {vupd : View → Json → View}
  {name : String} {t : Template} {q : Nat} {pre post : List NodeId} {is : List Instance}
  {sc : Scene}

/-- A new instance joins a row at its end. -/
theorem introduce_follows (hc : c.Sound) (hu : Updater.Follows c ts upd vupd)
    (ht : c.get? name = some t) (hts : t ∈ ts) (h : Row c name sc.document q pre post is)
    (hq : ∃ k, sc.document.kind? q = some k ∧ isContainer k = true) (v : Json) :
    ∃ j sc', introduce c upd name (fun r d => d.insertBefore q r post.head?) v sc = (.ok j, sc') ∧
      Row.Becomes c name sc.document sc'.document q pre post is (is ++ [j]) ∧
      viewAll sc'.document (is ++ [j]) = viewAll sc.document is ++ [vupd (View.new t) v] := by
  obtain ⟨i, d, hi, hm⟩ := Catalog.instantiate_eq hc ht h.linked
  obtain ⟨e, he, hb, hkind⟩ := h.becomes_gathered (hm.gathered ht) hq
  have hrow : Row c name e q pre post (is ++ [i] ++ []) := by simpa using hb.row
  obtain ⟨j, sc', hj, hr, hv⟩ := hu i v
    { sc with document := e, created := sc.created + 1 } q _ _ (hm.template_eq ▸ hts)
    hrow.part.placed
  have hstep := hrow.part.becomes_of_renewed hr
  have hwide := hstep.widen hrow
  have hall := hb.trans (by simpa using hwide)
  refine ⟨j, sc', ?_, hall, ?_⟩
  · unfold introduce
    rw [hi]
    simp only [hm.root_eq, Outcome.edit, he, Outcome.andThen, Outcome.ok]
    rw [hj]
    rfl
  · have hside := (hstep.view_side hrow).1
    have hold : viewAll e is = viewAll sc.document is := by
      simp only [viewAll_eq]
      refine List.map_congr_left fun k hk => view_congr k fun x hx => ?_
      rw [hkind, kind?_of_get? (hm.old x ((h.live k hk).lt_size x hx))]
    have hnew : i.view e = View.new t := by
      rw [← hm.view_eq]
      exact view_congr i fun x _ => hkind x
    simp only [viewAll_eq] at hside hold ⊢
    rw [List.map_append, hside, hold, List.map_singleton, hv, hnew]

theorem updateEach_follows (hu : Updater.Follows c ts upd vupd) (ht : c.get? name = some t)
    (hts : t ∈ ts) (is : List Instance) : ∀ (vs : List Json) (pre : List NodeId) (sc : Scene),
      is.length ≤ vs.length → Row c name sc.document q pre post is →
      ∃ js sc', updateEach upd is vs sc = .ok js sc' ∧
        Row.Becomes c name sc.document sc'.document q pre post is js ∧
        viewAll sc'.document js = List.zipWith vupd (viewAll sc.document is) vs := by
  induction is with
  | nil =>
    intro vs pre sc _ h
    exact ⟨[], sc, by cases vs <;> rfl, h.becomes, rfl⟩
  | cons i is ih =>
    intro vs pre sc hlen h
    cases vs with
    | nil => simp at hlen
    | cons v vs =>
      -- first the head, then the others beside the head as it is now
      have hrow : Row c name sc.document q pre post ([] ++ [i] ++ is) := h
      have hi : i.template ∈ ts := by
        have := h.template_eq i (by simp)
        rw [ht] at this
        exact Option.some.inj this ▸ hts
      obtain ⟨j, sc₁, hj, hr, hv⟩ := hu i v sc q _ _ hi hrow.part.placed
      have hstep := hrow.part.becomes_of_renewed hr
      have hhead : Row.Becomes c name sc.document sc₁.document q pre post (i :: is) (j :: is) :=
        hstep.widen hrow
      have hrow₁ : Row c name sc₁.document q pre post ([j] ++ is ++ []) := by
        simpa using hhead.row
      obtain ⟨js, sc₂, hjs, hb, hvs⟩ := ih vs _ sc₁ (by simpa using hlen)
        hrow₁.part
      have hb' : Row.Becomes c name sc₁.document sc₂.document q (pre ++ blockAll [j])
          (blockAll [] ++ post) is js := hb
      refine ⟨j :: js, sc₂, ?_, hhead.trans (by simpa using hb'.widen hrow₁), ?_⟩
      · rw [updateEach, hj]
        simp only [Outcome.ok, hjs]
      · have hhv := (hb'.view_side hrow₁).1
        have htv := (hstep.view_side hrow).2
        simp only [viewAll] at hhv ⊢
        rw [List.zipWith_cons_cons, hvs, htv, ← hv]
        rw [(List.cons.inj hhv).1]

/-- New instances for items, one after the other, in a fragment. -/
theorem grow_follows (hc : c.Sound) (hu : Updater.Follows c ts upd vupd)
    (ht : c.get? name = some t) (hts : t ∈ ts) (kept : List Instance) {b : Nat} (vs : List Json) :
    ∀ (news : List Instance) (sc : Scene), Row c name sc.document b [] [] news →
      sc.document.kind? b = some .fragment →
      ∃ js sc', grow c upd name b vs (kept ++ news) sc = .ok (kept ++ js) sc' ∧
        Row.Becomes c name sc.document sc'.document b [] [] news js ∧
        viewAll sc'.document js = viewAll sc.document news ++ vs.map (vupd (View.new t)) := by
  induction vs with
  | nil =>
    intro news sc h _
    exact ⟨news, sc, rfl, h.becomes, by simp⟩
  | cons v vs ih =>
    intro news sc h hb
    obtain ⟨i, sc₁, hi, hb₁, hv₁⟩ := introduce_follows hc hu ht hts h ⟨_, hb, rfl⟩ v
    obtain ⟨js, sc₂, hjs, hb₂, hv₂⟩ := ih (news ++ [i]) sc₁ hb₁.row (hb₁.kind?_eq.trans hb)
    refine ⟨js, sc₂, ?_, hb₁.trans hb₂, ?_⟩
    · have hput : (fun r (d : Document) => d.append b r) =
          fun r d => d.insertBefore b r ([] : List NodeId).head? := rfl
      rw [grow, hput, hi]
      simpa using hjs
    · rw [hv₂, hv₁]
      simp

private theorem zipWith_take {α β γ : Type} (f : α → β → γ) (xs : List α) (ys : List β) :
    List.zipWith f (xs.take ys.length) ys = List.zipWith f xs ys := by
  induction xs generalizing ys with
  | nil => simp
  | cons x xs ih => cases ys <;> simp [ih]

/-- The batch of new instances, inserted before the anchor. -/
theorem grow_insert_follows (hc : c.Sound) (hu : Updater.Follows c ts upd vupd)
    (ht : c.get? name = some t) (hts : t ∈ ts) {a : NodeId}
    (h : Row c name sc.document q pre (a :: post) is) (vs : List Json) :
    ∃ js sc', (grow c upd name sc.document.size vs is (sc.create .fragment)).andThen
          (.edit (·.insertBefore q sc.document.size (some a))) = .ok (is ++ js) sc' ∧
      Row.Becomes c name sc.document sc'.document q pre (a :: post) is (is ++ js) ∧
      viewAll sc'.document (is ++ js) = viewAll sc.document is ++ vs.map (vupd (View.new t)) ∧
      ∀ x : Nat, x ∈ ownedAll js → sc.document.size ≤ x := by
  let d := sc.document
  have hempty : Row c name (d.create .fragment) d.size [] [] [] := by
    refine ⟨h.linked.create _, by simp, by simp, by simp, List.nodup_nil, ?_, ?_⟩
    · exact List.not_mem_nil
    · rw [children_create, children_of_size_le (Nat.le_refl _)]
      rfl
  have hkind : (d.create .fragment).kind? d.size = some .fragment := by
    rw [kind?_create, if_pos rfl]
  obtain ⟨js, sc₁, hgrow, hb, hv⟩ := grow_follows hc hu ht hts is vs [] (sc.create .fragment)
    hempty hkind
  have hfresh : ∀ x : Nat, x ∈ ownedAll js → d.size < x := by
    intro x hx
    rcases hb.fresh x hx with hm | hm
    · cases hm
    · rw [Scene.create, size_create] at hm
      exact hm
  have hg : Row.Gathered c name d sc₁.document js := by
    refine ⟨hb.row.linked, ?_, hb.kind?_eq.trans hkind, ?_, hb.row.live, hb.row.template_eq, ?_,
      hb.row.nodup, fun x hx => Nat.le_of_lt (hfresh x hx), ?_⟩
    · intro x hx
      have hlt : x < (d.create .fragment).size := by rw [size_create]; omega
      rw [hb.changes.get?_eq x hlt ?_]
      · show (d.create .fragment).get? x = d.get? x
        rw [get?_create, if_neg (Nat.ne_of_lt hx)]
      · rintro (hm | rfl)
        · cases hm
        · omega
    · simpa using hb.row.children_eq
    · exact fun j hj r hr => .inr (hb.row.root_empty j hj r hr)
    · intro j hj hm
      exact absurd (hfresh _ (mem_ownedAll.mpr ⟨j, hj, body_subset_owned j hm⟩)) (Nat.lt_irrefl _)
  have hq : ∃ k, d.kind? q = some k ∧ isContainer k = true :=
    h.linked.isContainer (c := a) (by rw [h.children_eq]; simp)
  obtain ⟨f, hf, hbf, hkf⟩ := h.becomes_gathered hg hq
  refine ⟨js, { sc₁ with document := f }, ?_, hbf, ?_, fun x hx => Nat.le_of_lt (hfresh x hx)⟩
  · rw [List.append_nil] at hgrow
    rw [hgrow]
    simp only [Outcome.andThen, Outcome.ok, Outcome.edit]
    have : sc₁.document.insertBefore q sc.document.size (some a) = .ok f := hf
    rw [this]
  · have hold : viewAll f is = viewAll d is := by
      simp only [viewAll_eq]
      refine List.map_congr_left fun k hk => view_congr k fun x hx => ?_
      rw [hkf, kind?_of_get? (hg.old x ((h.live k hk).lt_size x hx))]
    have hnew : viewAll f js = viewAll sc₁.document js := by
      simp only [viewAll_eq]
      exact List.map_congr_left fun k _ => view_congr k fun x _ => hkf x
    show viewAll f (is ++ js) = viewAll d is ++ _
    have happ : viewAll f (is ++ js) = viewAll f is ++ viewAll f js := by
      simp only [viewAll_eq, List.map_append]
    rw [happ, hold, hnew, hv]
    rfl

/-- The instances that stay come first, and then those that are new. -/
theorem renderEach_parts (hc : c.Sound) (hu : Updater.Follows c ts upd vupd)
    (ht : c.get? name = some t) (hts : t ∈ ts) {a : NodeId}
    (h : Row c name sc.document q pre (a :: post) is) (items : List Json) :
    ∃ ks js sc', renderEach c upd name a items is sc = .ok (ks ++ js) sc' ∧
      Row.Becomes c name sc.document sc'.document q pre (a :: post) is (ks ++ js) ∧
      viewAll sc'.document (ks ++ js) = View.render c vupd name items (viewAll sc.document is) ∧
      ks.length = min is.length items.length ∧
      ∀ x : Nat, x ∈ ownedAll js → sc.document.size ≤ x := by
  let sc₀ := sc.tell (.reconciling name is.length items.length)
  have h₀ : Row c name sc₀.document q pre (a :: post) is := h
  have hb₀ := h₀.becomes_shrink hc items.length
  have hlen : (viewAll sc.document is).length = is.length := by rw [viewAll_eq, List.length_map]
  have hview₀ : viewAll (shrink name items.length is sc₀).2.document (is.take items.length) =
      (viewAll sc.document is).take items.length := by
    simp only [viewAll_eq, ← List.map_take]
    refine List.map_congr_left fun j hj => view_congr j fun x _ => ?_
    exact (shrink_letGo hc name items.length h₀.live h₀.nodup h₀.not_mem
      h₀.parent?_block).kind?_eq x
  obtain ⟨ks, sc₁, hks, hb₁, hv₁⟩ := updateEach_follows hu ht hts (is.take items.length) items pre
    (shrink name items.length is sc₀).2 (List.length_take_le _ _) hb₀.row
  rw [hview₀, zipWith_take] at hv₁
  have hks' : updateEach upd (shrink name items.length is sc₀).1 items
      (shrink name items.length is sc₀).2 = .ok ks sc₁ := hks
  have hkslen : ks.length = min is.length items.length := by
    have := congrArg List.length hv₁
    rwa [viewAll_eq, List.length_map, List.length_zipWith, hlen] at this
  have hb := hb₀.trans hb₁
  unfold renderEach View.render
  simp only [ht, hlen]
  by_cases hle : items.length ≤ is.length
  · refine ⟨ks, [], sc₁, ?_, ?_, ?_, hkslen, nofun⟩
    · show (updateEach upd (shrink name items.length is sc₀).1 items _).andThen _ = _
      rw [hks']
      simp [Outcome.andThen, Outcome.ok, hle]
    · rw [List.append_nil]
      exact hb
    · rw [List.append_nil, hv₁, List.drop_eq_nil_of_le hle]
      simp
  · have hpar : sc₁.document.parent? a = some q := by
      rw [← hb.row.linked.mem_children_iff, hb.row.children_eq]
      simp
    obtain ⟨js, sc₂, hjs, hb₂, hv₂, hfresh⟩ := grow_insert_follows hc hu ht hts hb.row
      (items.drop is.length)
    refine ⟨ks, js, sc₂, ?_, hb.trans hb₂, ?_, hkslen, fun x hx =>
      Nat.le_trans hb.changes.size_le (hfresh x hx)⟩
    · show (updateEach upd (shrink name items.length is sc₀).1 items _).andThen _ = _
      rw [hks']
      simp only [Outcome.andThen, Outcome.ok, hle, ↓reduceIte, hpar]
      exact hjs
    · rw [hv₂, hv₁]

theorem renderEach_follows (hc : c.Sound) (hu : Updater.Follows c ts upd vupd)
    (ht : c.get? name = some t) (hts : t ∈ ts) {a : NodeId}
    (h : Row c name sc.document q pre (a :: post) is) (items : List Json) :
    ∃ js sc', renderEach c upd name a items is sc = .ok js sc' ∧
      Row.Becomes c name sc.document sc'.document q pre (a :: post) is js ∧
      viewAll sc'.document js = View.render c vupd name items (viewAll sc.document is) := by
  obtain ⟨ks, js, sc', hrender, hb, hv, _⟩ := renderEach_parts hc hu ht hts h items
  exact ⟨ks ++ js, sc', hrender, hb, hv⟩

theorem renderPresent_follows (hc : c.Sound) (hu : Updater.Follows c ts upd vupd)
    (ht : c.get? name = some t) (hts : t ∈ ts) {a : NodeId}
    (h : Row c name sc.document q pre (a :: post) is) (hone : is.length ≤ 1) (x : Json) :
    ∃ js sc', renderPresent c upd name a x is sc = .ok js sc' ∧
      Row.Becomes c name sc.document sc'.document q pre (a :: post) is js ∧
      viewAll sc'.document js =
        View.render c vupd name (if x.isPresent then [x] else []) (viewAll sc.document is) := by
  unfold renderPresent
  by_cases hx : x.isPresent
  · rw [if_pos hx, if_pos hx]
    match is, hone with
    | [], _ =>
      have hpar : sc.document.parent? a = some q := by
        rw [← h.linked.mem_children_iff, h.children_eq]
        simp
      obtain ⟨j, sc', hj, hb, hv⟩ := introduce_follows hc hu ht hts h
        (h.linked.isContainer (c := a) (by rw [h.children_eq]; simp)) x
      refine ⟨[j], sc', ?_, hb, ?_⟩
      · simp only [hpar]
        rw [show (fun r (d : Document) => d.insertBefore q r (some a)) =
          fun r d => d.insertBefore q r (a :: post).head? from rfl, hj]
      · rw [View.render, ht]
        exact hv
    | [i], _ =>
      have hi : i.template ∈ ts := by
        have := h.template_eq i (by simp)
        rw [ht] at this
        exact Option.some.inj this ▸ hts
      obtain ⟨j, sc', hj, hr, hv⟩ := hu i x sc q _ _ hi h.placed
      refine ⟨[j], sc', ?_, h.becomes_of_renewed hr, ?_⟩
      · simp only [hj, Outcome.ok]
      · simp [viewAll, View.render, ht, hv]
  · rw [if_neg hx, if_neg hx]
    match is, hone with
    | [], _ => exact ⟨[], sc, rfl, h.becomes, by simp [View.render, ht, viewAll]⟩
    | [i], _ =>
      have hg : LetGo q (blockAll [i]) sc.document (i.release name sc).2.document := by
        have hnd := h.placed.nodup
        have hpar := h.parent?_block
        simp only [blockAll, List.append_nil] at hpar ⊢
        exact remove_letGo hc (h.live i (by simp)) hnd
          (fun hm => h.not_mem (by simpa [ownedAll] using hm)) hpar
      have hrow : Row c name sc.document q pre (a :: post) ([] ++ [i]) := h
      exact ⟨[], (i.release name sc).2, rfl, hrow.becomes_of_letGo hg,
        by simp [View.render, ht, viewAll]⟩

/-- Every directive brings a row to one instance for each of its items. -/
theorem reconcile_follows (hc : c.Sound) (hu : Updater.Follows c ts upd vupd)
    (ht : c.get? name = some t) (hts : t ∈ ts) {a : NodeId}
    (h : Row c name sc.document q pre (a :: post) is) (dir : Directive)
    (hone : dir = .onPresent → is.length ≤ 1) (x : Json) :
    ∃ js sc', reconcile c upd name dir a x is sc = .ok js sc' ∧
      Row.Becomes c name sc.document sc'.document q pre (a :: post) is js ∧
      viewAll sc'.document js = View.render c vupd name (dir.items x) (viewAll sc.document is) := by
  cases dir with
  | onTruthy => exact renderEach_follows hc hu ht hts h _
  | onPresent => exact renderPresent_follows hc hu ht hts h (hone rfl) x
  | forEach =>
    cases hx : x.items? with
    | some items =>
      simp only [reconcile, renderItems, Directive.items, hx]
      exact renderEach_follows hc hu ht hts h items
    | none =>
      simp only [reconcile, renderItems, Directive.items, hx]
      have htold : Row c name (sc.tell (.notSequence name x)).document q pre (a :: post) is := h
      exact renderEach_follows hc hu ht hts htold []

end Children
end Stencil
