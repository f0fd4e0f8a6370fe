import Stencil.Proofs.Binding.Calls
import Stencil.Proofs.Instance.Dividing
import Stencil.Proofs.Instance.Forgetting

/-! Known data. A view knows data when its variables have what the data gives them, and what
reads them is done, here and in the nested views that the data goes to. A view that was updated
with clear data knows it, and knows what is found in it below its keys. -/
namespace Stencil
open Binding

/-! ## Routes below a route -/

namespace Json

theorem follow_null (ss : List String) : Json.null.follow ss = .null := by
  cases ss <;> rfl

theorem follow_append (ss ts : List String) (x : Json) :
    x.follow (ss ++ ts) = (x.follow ss).follow ts := by
  induction ss generalizing x with
  | nil => rfl
  | cons k ss ih =>
    rw [List.cons_append, follow, follow]
    cases x.field? k with
    | none => exact (follow_null ts).symm
    | some y => exact ih y

end Json

/-- What the route of a longer key binds is bound by the route of the key itself, with the longer
way to it. -/
theorem Draft.Sound.exists_route_above {d : Draft} {name key : String} (h : d.Sound)
    {tail : List String} (htail : ∀ s ∈ tail, '.' ∉ s.toList) {q : Route}
    (hq : (d.finish name).route? (dotted (key :: tail)) = some q) {b : Var × List String}
    (hb : b ∈ q.bindings) :
    ∃ r, (d.finish name).route? key = some r ∧ (b.1, tail ++ b.2) ∈ r.bindings := by
  obtain ⟨p, hkey, hat⟩ := h.exists_routesAt hq
  have hvar := (hat.mem_bindings b.1 b.2).mp hb
  -- the path is cut where the key ends
  have hsplit : p.segments.map String.toList =
      Text.split '.' key.toList ++ tail.map String.toList := by
    rw [← split_dotted p.segments_ne_nil p.isIdentifier_of_mem, hkey, dotted, String.toList_ofList]
    exact Text.split_join_cons _ (by simpa using htail)
  obtain ⟨ss, ts, hsegments, hss, hts⟩ := List.map_eq_append_iff.mp hsplit
  obtain rfl : ts = tail := List.map_injective_iff.mpr (fun _ _ => String.toList_inj.mp) hts
  have hne : ss ≠ [] := by
    rintro rfl
    exact Text.split_ne_nil _ _ hss.symm
  have hdotted : dotted ss = key := by rw [dotted, hss, Text.join_split, String.ofList_toList]
  rw [hsegments, List.append_assoc] at hvar
  obtain ⟨r₀, hr₀, hat₀⟩ := h.coherent.exists_route hne hvar
  obtain ⟨r, hr⟩ : ∃ r, (d.finish name).route? key = some r :=
    Option.isSome_iff_exists.mp
      (List.find?_isSome.mpr ⟨r₀, hr₀, by simp [hat₀.key_eq, hdotted]⟩)
  obtain ⟨p', hkey', hat'⟩ := h.exists_routesAt hr
  have hp' : p'.segments = ss := by
    refine dotted_inj p'.segments_ne_nil hne p'.isIdentifier_of_mem (fun s hs => ?_)
      (hkey'.trans hdotted.symm)
    exact p.isIdentifier_of_mem s (by rw [hsegments]; exact List.mem_append_left _ hs)
  exact ⟨r, hr, (hat'.mem_bindings _ _).mpr (hp' ▸ hvar)⟩

namespace View

/-! ## Views that know data -/

/-- The variables that the fields bind have the values that they give them, what reads these is
done, and the views that directives have rendered for them know their items. -/
inductive Knows : View → Json → Prop
  | other {V : View} {data : Json} (no_object : ∀ fields, data ≠ .obj fields) : Knows V data
  | object {V : View} {fields : List (String × Json)}
      (values : ∀ f ∈ fields, ∀ r, V.template.route? f.1 = some r → ∀ b ∈ r.bindings,
        V.values[b.1]? = some (f.2.follow b.2))
      (done : ∀ f ∈ fields, ∀ x ∈ V.template.computations, Reaches V.template x f → V.Done x)
      (nested : ∀ f ∈ fields, ∀ dir name s v g,
        .reconcile dir name s v g ∈ V.template.computations →
        Reaches V.template (.reconcile dir name s v g) f → ∀ vs, V.groups[g]? = some vs →
          ∀ (k : Nat) W x, vs[k]? = some W → (dir.items (V.value v))[k]? = some x → Knows W x) :
      Knows V (.obj fields)

variable {c : Catalog} {o : Origin} {upd : View → Json → View} {V : View}

/-- What one update leaves known, given that nested updates leave their items known. -/
theorem knows_updateWith (hc : c.Built o) (ho : o.Distinct) {n : Nat}
    (hupd : ∀ W x, W.template ∈ c.templates.take n → Proper c W → x.isClear = true →
      (upd W x).Knows x) (hm : V.template ∈ c.templates.take (n + 1)) (hV : Proper c V)
    {data : Json} (hdata : data.isClear = true) : (V.updateWith c upd data).Knows data := by
  cases data with
  | obj fields =>
    have hmt := hV.template_mem
    have hs := hV.shaped
    have htemplate : (V.updateWith c upd (.obj fields)).template = V.template :=
      template_updateWith V _
    obtain ⟨hfs, hclear⟩ := Json.isClear_obj_iff.mp hdata
    obtain ⟨d, _, hd, hready⟩ := hc.exists_draft hmt
    have hvalues : ∀ f ∈ fields, ∀ r, V.template.route? f.1 = some r → ∀ b ∈ r.bindings,
        (V.updateWith c upd (.obj fields)).values[b.1]? = some (f.2.follow b.2) := by
      intro f hf r hr b hb
      exact values_takeFields_of_mem hready.sound hfs hd hs hf (hd ▸ hr) hb
    refine .object ?_ ?_ ?_ <;> rw [htemplate]
    · exact hvalues
    · intro f hf x hx hreach
      exact done_takeFields hc.sound hmt (hc.routed hmt) hs hx (hc.alone ho hmt hx)
        (.inr ⟨f, hf, hreach⟩)
    · rintro f hf dir nested s v g hx ⟨r, hr, ⟨w, ts⟩, hb, hw⟩ vs' hg' k W x hW hitem
      obtain rfl : w = v := List.mem_singleton.mp hw
      have hg : V.groups[g]? = some _ := List.getElem?_eq_getElem
        (hs.groups_length ▸ ((hc.sound.template _ hmt).fits _ hx).2.2)
      have hxd := hx
      have hal := hc.alone ho hmt hx
      rw [hd] at hxd hal
      have hgroup : (V.updateWith c upd (.obj fields)).groups[g]? = some
          (render c upd nested (dir.items (f.2.follow ts)) _) :=
        groups_takeFields_of_mem hready.sound hfs hd hs hf (hd ▸ hr) hxd hal hg hb
      cases hg'.symm.trans hgroup
      obtain ⟨u, hu, hget⟩ := hc.sound.exists_nested hm hx
      -- the view was rendered for the item at its place
      rw [value, hvalues f hf r hr _ hb, Option.getD_some] at hitem
      rw [getElem?_render hget, hitem] at hW
      cases hW
      obtain ⟨htmpl, hproper⟩ := hV.groups.getD hx hg hget (proper_new (List.mem_of_mem_take hu)) k
      refine hupd _ x (by rw [htmpl]; exact hu) hproper ?_
      exact Json.isClear_items dir (Json.isClear_follow ts (hclear f hf)) x
        (List.mem_of_getElem? hitem)
  | null | bool | num | str | arr => exact .other (by intro _ h; cases h)

/-- A view knows the clear data that it was updated with. -/
theorem knows_updateTo (hc : c.Built o) (ho : o.Distinct) {n : Nat}
    (hm : V.template ∈ c.templates.take n) (hV : Proper c V) {data : Json}
    (hdata : data.isClear = true) : (updateTo c n V data).Knows data := by
  induction n generalizing V data with
  | zero => cases hm
  | succ n ih =>
    exact knows_updateWith hc ho (fun _ _ hW hproper hx => ih hW hproper hx) hm hV hdata

/-- What is found below a key of known data is known under the longer key. -/
theorem Knows.follow (hc : c.Built o) (hm : V.template ∈ c.templates)
    {fields : List (String × Json)} (h : V.Knows (.obj fields)) {f : String × Json}
    (hf : f ∈ fields) {tail : List String} (htail : ∀ s ∈ tail, '.' ∉ s.toList) :
    V.Knows (.obj [(dotted (f.1 :: tail), f.2.follow tail)]) := by
  have habove : ∀ q, V.template.route? (dotted (f.1 :: tail)) = some q → ∀ b ∈ q.bindings,
      ∃ r, V.template.route? f.1 = some r ∧ (b.1, tail ++ b.2) ∈ r.bindings := by
    obtain ⟨d, _, hd, hready⟩ := hc.exists_draft hm
    rw [hd]
    exact fun q hq b hb => hready.sound.exists_route_above htail hq hb
  have hreach : ∀ x, Reaches V.template x (dotted (f.1 :: tail), f.2.follow tail) →
      Reaches V.template x f := by
    rintro x ⟨q, hq, b, hb, hv⟩
    obtain ⟨r, hr, hb'⟩ := habove q hq b hb
    exact ⟨r, hr, _, hb', hv⟩
  cases h with
  | other no_object => exact absurd rfl (no_object fields)
  | object values done nested =>
    refine .object ?_ ?_ ?_
    · intro g hg q hq b hb
      cases List.mem_singleton.mp hg
      obtain ⟨r, hr, hb'⟩ := habove q hq b hb
      rw [values f hf r hr _ hb', Json.follow_append]
    · intro g hg x hx hxg
      cases List.mem_singleton.mp hg
      exact done f hf x hx (hreach x hxg)
    · intro g hg dir name s v k hx hxg
      cases List.mem_singleton.mp hg
      exact nested f hf dir name s v k hx (hreach _ hxg)

end View
end Stencil
