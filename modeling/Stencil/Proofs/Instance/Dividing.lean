import Stencil.Proofs.Instance.First
import Stencil.Proofs.Json.Clear

/-! Clear data divides the variables of a template among its fields: no two of them bind one
variable. After all fields a variable therefore has what the one that binds it gives it, and a
directive has rendered its group once. -/
namespace Stencil
open Binding

/-- A variable is bound by one field only. -/
theorem Draft.Sound.field_unique {d : Draft} {name : String} (h : d.Sound)
    {fs : List (String × Json)} (hfs : Json.Apart fs) {f g : String × Json} (hf : f ∈ fs)
    (hg : g ∈ fs) {r q : Route} (hr : (d.finish name).route? f.1 = some r)
    (hq : (d.finish name).route? g.1 = some q) {b b' : Var × List String} (hb : b ∈ r.bindings)
    (hb' : b' ∈ q.bindings) (hv : b.1 = b'.1) : f = g := by
  obtain ⟨p, hkey, hat⟩ := h.exists_routesAt hr
  obtain ⟨p', hkey', hat'⟩ := h.exists_routesAt hq
  have hvar := (hat.mem_bindings b.1 b.2).mp hb
  have hvar' := (hat'.mem_bindings b'.1 b'.2).mp hb'
  rw [← hv] at hvar'
  -- both keys lead along the path of the variable
  have hpath : p.segments ++ b.2 = p'.segments ++ b'.2 := h.coherent.var_inj _ _ b.1 hvar hvar'
  have hp : p.segments <+: p.segments ++ b.2 := List.prefix_append _ _
  have hp' : p'.segments <+: p.segments ++ b.2 := hpath ▸ List.prefix_append _ _
  rcases List.prefix_or_prefix_of_prefix hp hp' with hp | hp
  · refine hfs.eq_of_covers hf hg ?_
    rw [← hkey, ← hkey']
    exact covers_dotted p.segments_ne_nil hp
  · refine (hfs.eq_of_covers hg hf ?_).symm
    rw [← hkey, ← hkey']
    exact covers_dotted p'.segments_ne_nil hp

namespace View

variable {c : Catalog} {upd : View → Json → View} {V : View} {d : Draft} {name : String}

section

variable {fs : List (String × Json)} (hd : d.Sound) (hfs : Json.Apart fs)
include hd hfs

/-- What reads one variable only is reached by one field only. -/
theorem Reaches.unique {x : Computation} (hx : ∀ v ∈ x.vars, ∀ w ∈ x.vars, v = w)
    {f g : String × Json} (hf : f ∈ fs) (hg : g ∈ fs) (h : Reaches (d.finish name) x f)
    (h' : Reaches (d.finish name) x g) : f = g := by
  obtain ⟨r, hr, b, hb, hv⟩ := h
  obtain ⟨q, hq, b', hb', hv'⟩ := h'
  exact hd.field_unique hfs hf hg hr hq hb hb' (hx _ hv _ hv')

/-- No field but one reaches what reads one variable only. -/
theorem Reaches.alone {x : Computation} (hx : ∀ v ∈ x.vars, ∀ w ∈ x.vars, v = w)
    {pre post : List (String × Json)} {f : String × Json} (hsplit : fs = pre ++ f :: post)
    (h : Reaches (d.finish name) x f) :
    (∀ g ∈ pre, ¬ Reaches (d.finish name) x g) ∧ ∀ g ∈ post, ¬ Reaches (d.finish name) x g := by
  subst hsplit
  obtain ⟨hpre, hpost⟩ := hfs.not_mem
  refine ⟨fun g hg hreach => hpre ?_, fun g hg hreach => hpost ?_⟩
  · have := hreach.unique hd hfs hx (by simp [hg]) (by simp) h
    rwa [← this]
  · have := hreach.unique hd hfs hx (by simp [hg]) (by simp) h
    rwa [← this]

variable (hV : V.template = d.finish name) (hs : V.Shaped) {f : String × Json} (hf : f ∈ fs)
  {r : Route} (hr : (d.finish name).route? f.1 = some r)
include hV hs hf hr

theorem values_takeFields_of_mem {b : Var × List String} (hb : b ∈ r.bindings) :
    (fs.foldl (takeField c upd) V).values[b.1]? = some (f.2.follow b.2) := by
  obtain ⟨pre, post, rfl⟩ := List.append_of_mem hf
  obtain ⟨_, _, hat⟩ := hd.exists_routesAt hr
  have htemplate : (pre.foldl (takeField c upd) V).template = d.finish name :=
    (template_takeFields pre V).trans hV
  have hshaped : (pre.foldl (takeField c upd) V).Shaped :=
    hs.takeFields (hV ▸ hd.template name) pre
  rw [List.foldl_append, List.foldl_cons, values_takeFields_of_not_bound]
  · exact values_takeField_self hd htemplate hshaped hr hat ((hat.mem_bindings b.1 b.2).mp hb)
  · intro g hg q hq b' hb' hv
    rw [template_takeField, htemplate] at hq
    have := hd.field_unique hfs (by simp [hg]) hf hq hr hb' hb hv
    exact hfs.not_mem.2 (this ▸ hg)

theorem groups_takeFields_of_mem {dir : Directive} {nested : String} {s : Slot}
    {v : Var} {g : Group} (hx : .reconcile dir nested s v g ∈ d.index.computations)
    (hal : (d.finish name).Alone (.reconcile dir nested s v g)) {vs : List View}
    (hg : V.groups[g]? = some vs) {ts : List String} (hb : (v, ts) ∈ r.bindings) :
    (fs.foldl (takeField c upd) V).groups[g]? =
      some (render c upd nested (dir.items (f.2.follow ts)) vs) := by
  obtain ⟨pre, post, hsplit⟩ := List.append_of_mem hf
  obtain ⟨_, _, hat⟩ := hd.exists_routesAt hr
  have hone : ∀ w ∈ (Computation.reconcile dir nested s v g).vars,
      ∀ w' ∈ (Computation.reconcile dir nested s v g).vars, w = w' := by
    simp [Computation.vars]
  have hreach : Reaches (d.finish name) (.reconcile dir nested s v g) f :=
    ⟨r, hr, _, hb, List.mem_singleton_self v⟩
  obtain ⟨hpre, hpost⟩ := hreach.alone hd hfs hone hsplit
  rw [hsplit]
  exact groups_takeFields hd hV hs hx hal hg hr hat ((hat.mem_bindings v ts).mp hb) hpre hpost

end

/-! ## Views as their templates ask for them -/

/-- Here and in all nested views the lists are those that the template asks for. -/
inductive Proper (c : Catalog) : View → Prop
  | intro {V : View} (template_mem : V.template ∈ c.templates) (shaped : V.Shaped)
      (templates : Groups c (fun _ => True) V)
      (nested : ∀ vs ∈ V.groups, ∀ W ∈ vs, Proper c W) : Proper c V

theorem Proper.template_mem (h : Proper c V) : V.template ∈ c.templates := by
  cases h with
  | intro h => exact h

theorem Proper.shaped (h : Proper c V) : V.Shaped := by
  cases h with
  | intro _ h => exact h

theorem Proper.groups (h : Proper c V) : Groups c (Proper c) V := by
  cases h with
  | intro _ _ templates nested =>
    intro dir name s v g vs hx hg W hW
    exact ⟨(templates dir name s v g vs hx hg W hW).1, nested vs (List.mem_of_getElem? hg) W hW⟩

theorem proper_new {t : Template} (ht : t ∈ c.templates) : Proper c (new t) := by
  have hnil : ∀ vs ∈ (new t).groups, ∀ W, W ∉ vs := by
    intro vs hvs W hW
    rw [List.eq_of_mem_replicate hvs] at hW
    cases hW
  refine .intro ht (shaped_new t) ?_ ?_
  · exact fun dir name s v g vs _ hg W hW => absurd hW (hnil vs (List.mem_of_getElem? hg) W)
  · exact fun vs hvs W hW => absurd hW (hnil vs hvs W)

end View

namespace Instance

variable {c : Catalog} {d : Document} {i : Instance}

theorem Stands.shaped (h : i.Stands c d) : (i.view d).Shaped where
  held s seed hs := by
    rw [view_eq] at hs
    obtain ⟨n, k, hn, hk, hh⟩ := h.exists_node hs
    exact ⟨k, kinds_view hn hk, hh⟩
  values_length := by
    rw [view_eq]
    exact h.values_length
  groups_length := by
    rw [view_eq, viewGroups_eq, List.length_map]
    exact h.groups_length

theorem Live.proper (h : i.Live c d) : (i.view d).Proper c := by
  induction h with
  | @intro i hst _ ih =>
    refine .intro ?_ hst.shaped ?_ ?_
    · rw [Instance.view_eq]
      exact hst.template_mem
    · intro dir name s v g vs hx hg W hW
      obtain ⟨is, his, rfl⟩ := exists_of_groups hg
      obtain ⟨j, hj, rfl⟩ := List.mem_map.mp hW
      rw [Instance.view_eq] at hx ⊢
      exact ⟨(hst.nested dir name s v g is hx his j hj).1, trivial⟩
    · intro vs hvs W hW
      obtain ⟨g, hg⟩ := List.getElem?_of_mem hvs
      obtain ⟨is, his, rfl⟩ := exists_of_groups hg
      obtain ⟨j, hj, rfl⟩ := List.mem_map.mp hW
      exact ih is (List.mem_of_getElem? his) j hj

end Instance
end Stencil
