import Stencil.Markup.Node

/-! The grammar of token lists. A list that balances stands for nodes beside each other; one
that may still balance has elements open, each with the nodes that are finished in it. Trees
are built for the lists that hold one element and blank texts around it, and every other
list is refused for the first thing that is wrong with it. -/
namespace Stencil.Markup

/-- Tokens that make up nodes beside each other. -/
inductive Balanced : List Token → List Node → Prop
  | nil : Balanced [] []
  | text (s : String) {ts : List Token} {ns : List Node} (h : Balanced ts ns) :
    Balanced (.text s :: ts) (.text s :: ns)
  | childless (tag : String) (as : List Attribute) {ts : List Token} {ns : List Node}
    (h : Balanced ts ns) : Balanced (.opening tag as true :: ts) (.element tag as [] :: ns)
  | element (tag : String) (as : List Attribute) {inner ts : List Token} {cs ns : List Node}
    (hc : Balanced inner cs) (h : Balanced ts ns) :
    Balanced (.opening tag as false :: (inner ++ .closing tag :: ts)) (.element tag as cs :: ns)

/-- Tokens that are read while elements are open: these elements, innermost first, with the
nodes that are finished in them, and the nodes that stand before all of them. -/
inductive Pending : List Token → List OpenElement → List Node → Prop
  | top {ts : List Token} {ns : List Node} (h : Balanced ts ns) : Pending ts [] ns
  | inside (tag : String) (as : List Attribute) {ts inner : List Token} {es : List OpenElement}
    {ns cs : List Node} (h : Pending ts es ns) (hc : Balanced inner cs) :
    Pending (ts ++ .opening tag as false :: inner) (⟨tag, as, cs⟩ :: es) ns

def Token.isSpacing : Token → Bool
  | .text s => Text.isBlankText s
  | _ => false

def Node.isSpacing : Node → Bool
  | .text s => Text.isBlankText s
  | _ => false

/-- Nodes other than blank texts. -/
def Node.visible (ns : List Node) : List Node := ns.filter (!·.isSpacing)

/-- What is wrong with a list of tokens: the first closing tag that closes nothing, or not
what is open; an element left open; or, if all tags balance, not one element at the top. -/
inductive Misfit (ts : List Token) : TreeError → Prop
  | unexpectedEnd {before after : List Token} {tag : String} {ns : List Node}
    (hts : ts = before ++ .closing tag :: after) (h : Balanced before ns) :
    Misfit ts (.unexpectedEnd tag)
  | mismatchedEnd {before after : List Token} {tag : String} {e : OpenElement}
    {es : List OpenElement} {ns : List Node} (hts : ts = before ++ .closing tag :: after)
    (h : Pending before (e :: es) ns) (htag : e.tag ≠ tag) :
    Misfit ts (.mismatchedEnd e.tag tag)
  | unclosed {e : OpenElement} {es : List OpenElement} {ns : List Node}
    (h : Pending ts (e :: es) ns) : Misfit ts (.unclosed e.tag)
  | manyRoots {ns : List Node} (h : Balanced ts ns) (hns : 2 ≤ (Node.visible ns).length) :
    Misfit ts .manyRoots
  | noRoot {ns : List Node} (h : Balanced ts ns) (hns : (Node.visible ns).length < 2)
    (hr : ∀ r ∈ Node.visible ns, r.isElement = false) : Misfit ts .noRoot

variable {ts us : List Token} {ns ms : List Node} {es : List OpenElement}

/-! ## Nodes beside each other -/

namespace Balanced

theorem append (h : Balanced ts ns) (h' : Balanced us ms) : Balanced (ts ++ us) (ns ++ ms) := by
  induction h with
  | nil => exact h'
  | text s _ ih => exact .text s ih
  | childless tag as _ ih => exact .childless tag as ih
  | element tag as hc _ _ ih =>
    have happ := Balanced.element tag as hc ih
    simpa using happ

/-- Tokens can be cut where nodes are. -/
theorem exists_append (h : Balanced ts (ns ++ ms)) :
    ∃ us vs, ts = us ++ vs ∧ Balanced us ns ∧ Balanced vs ms := by
  induction ns generalizing ts with
  | nil => exact ⟨[], ts, rfl, .nil, h⟩
  | cons n ns ih =>
    cases h with
    | text s h =>
      obtain ⟨us, vs, rfl, hus, hvs⟩ := ih h
      exact ⟨.text s :: us, vs, rfl, .text s hus, hvs⟩
    | childless tag as h =>
      obtain ⟨us, vs, rfl, hus, hvs⟩ := ih h
      exact ⟨.opening tag as true :: us, vs, rfl, .childless tag as hus, hvs⟩
    | element tag as hc h =>
      obtain ⟨us, vs, rfl, hus, hvs⟩ := ih h
      exact ⟨_, vs, by simp, .element tag as hc hus, hvs⟩

theorem isSpacing_tokens (h : Balanced ts ns) (hns : ∀ n ∈ ns, n.isSpacing = true) :
    ∀ t ∈ ts, t.isSpacing = true := by
  induction h with
  | nil => simp
  | text s _ ih =>
    simp only [List.forall_mem_cons] at hns ⊢
    exact ⟨hns.1, ih hns.2⟩
  | childless | element => simp [Node.isSpacing] at hns

theorem exists_of_isSpacing (h : ∀ t ∈ ts, t.isSpacing = true) :
    ∃ ns, Balanced ts ns ∧ ∀ n ∈ ns, n.isSpacing = true := by
  induction ts with
  | nil => exact ⟨[], .nil, by simp⟩
  | cons t ts ih =>
    simp only [List.forall_mem_cons] at h
    obtain ⟨ns, hns, hblank⟩ := ih h.2
    cases t with
    | text s => exact ⟨.text s :: ns, .text s hns, List.forall_mem_cons.mpr ⟨h.1, hblank⟩⟩
    | opening | closing => simp [Token.isSpacing] at h

end Balanced

/-! ## Growing -/

namespace Growth

/-- Takes a finished node: outside of all elements a blank text does not count. -/
def take (g : Growth) (n : Node) : Growth :=
  if g.stack.isEmpty && n.isSpacing then g else g.add n

theorem foldl_take_inside (e : OpenElement) (es : List OpenElement) (roots ns : List Node) :
    ns.foldl take ⟨e :: es, roots⟩ = ⟨{ e with children := e.children ++ ns } :: es, roots⟩ := by
  induction ns generalizing e with
  | nil => simp
  | cons n ns ih =>
    have htake : take ⟨e :: es, roots⟩ n =
        ⟨{ e with children := e.children ++ [n] } :: es, roots⟩ := rfl
    rw [List.foldl_cons, htake, ih]
    simp

theorem foldl_take_top (roots ns : List Node) :
    ns.foldl take ⟨[], roots⟩ = ⟨[], roots ++ Node.visible ns⟩ := by
  induction ns generalizing roots with
  | nil => simp [Node.visible]
  | cons n ns ih =>
    rw [List.foldl_cons]
    cases hn : n.isSpacing with
    | true =>
      have htake : take ⟨[], roots⟩ n = ⟨[], roots⟩ := by simp [take, hn]
      rw [htake, ih]
      simp [Node.visible, hn]
    | false =>
      have htake : take ⟨[], roots⟩ n = ⟨[], roots ++ [n]⟩ := by simp [take, hn, add]
      rw [htake, ih]
      simp [Node.visible, hn]

/-- Balanced tokens add their nodes, whatever is open and whatever follows. -/
theorem steps_balanced (h : Balanced ts ns) (g : Growth) (rest : List Token) :
    g.steps (ts ++ rest) = (ns.foldl take g).steps rest := by
  induction h generalizing g rest with
  | nil => rfl
  | text s _ ih =>
    rw [List.cons_append, steps, step]
    exact ih _ rest
  | childless tag as _ ih =>
    rw [List.cons_append, steps, step]
    have htake : g.take (.element tag as []) = g.add (.element tag as []) := by
      simp [take, Node.isSpacing]
    rw [List.foldl_cons, htake]
    exact ih _ rest
  | @element tag as inner ts cs ns _ _ ihc ih =>
    have hclose : step ⟨⟨tag, as, [] ++ cs⟩ :: g.stack, g.roots⟩ (.closing tag) =
        .ok (g.take (.element tag as cs)) := by
      simp [step, take, Node.isSpacing]
    rw [List.cons_append, steps, step, List.append_assoc, List.cons_append]
    simp only [ihc, foldl_take_inside]
    rw [steps, hclose]
    exact ih _ rest

/-- What is pending is what has grown. -/
theorem steps_pending (h : Pending ts es ns) (rest : List Token) :
    ({} : Growth).steps (ts ++ rest) = steps ⟨es, Node.visible ns⟩ rest := by
  induction h generalizing rest with
  | top h =>
    rw [steps_balanced h, foldl_take_top]
    rfl
  | inside tag as _ hc ih =>
    rw [List.append_assoc, ih, List.cons_append, steps, step]
    simp only [steps_balanced hc, foldl_take_inside]
    rfl

/-- Balanced tokens leave open what is open. -/
theorem exists_pending_append (h : Pending ts es ns) (hu : Balanced us ms) :
    ∃ es' ns', Pending (ts ++ us) es' ns' ∧
      ms.foldl take ⟨es, Node.visible ns⟩ = ⟨es', Node.visible ns'⟩ := by
  cases h with
  | top h =>
    refine ⟨[], ns ++ ms, .top (h.append hu), ?_⟩
    rw [foldl_take_top]
    simp [Node.visible]
  | @inside tag as ts inner es _ cs h hc =>
    refine ⟨⟨tag, as, cs ++ ms⟩ :: es, ns, ?_, foldl_take_inside _ es _ ms⟩
    have hin := Pending.inside tag as h (hc.append hu)
    simpa using hin

/-- One more token is pending with the others, or closes what it must not close. -/
theorem step_pending (h : Pending ts es ns) (t : Token) :
    (∃ es' ns', Pending (ts ++ [t]) es' ns' ∧
      step ⟨es, Node.visible ns⟩ t = .ok ⟨es', Node.visible ns'⟩) ∨
    ∃ err, step ⟨es, Node.visible ns⟩ t = .error err ∧ ∀ rest, Misfit (ts ++ t :: rest) err := by
  cases t with
  | text s =>
    obtain ⟨es', ns', hp, hg⟩ := exists_pending_append h (.text s .nil)
    exact .inl ⟨es', ns', hp, congrArg _ hg⟩
  | opening tag as selfClosing =>
    cases selfClosing with
    | true =>
      obtain ⟨es', ns', hp, hg⟩ := exists_pending_append h (.childless tag as .nil)
      refine .inl ⟨es', ns', hp, ?_⟩
      rw [← hg]
      simp [step, take, Node.isSpacing]
    | false => exact .inl ⟨⟨tag, as, []⟩ :: es, ns, .inside tag as h .nil, rfl⟩
  | closing tag =>
    cases h with
    | top h => exact .inr ⟨.unexpectedEnd tag, rfl, fun rest => .unexpectedEnd rfl h⟩
    | @inside tag' as ts inner es _ cs h hc =>
      by_cases htag : tag' = tag
      · subst htag
        obtain ⟨es', ns', hp, hg⟩ := exists_pending_append h (.element tag' as hc .nil)
        refine .inl ⟨es', ns', by simpa using hp, ?_⟩
        rw [← hg]
        simp [step, take, Node.isSpacing]
      · refine .inr ⟨.mismatchedEnd tag' tag, by simp [step, htag], fun rest => ?_⟩
        exact .mismatchedEnd rfl (.inside tag' as h hc) htag

/-- All tokens are pending together, or one of them is the first that does not fit. -/
theorem steps_cases (h : Pending ts es ns) (us : List Token) :
    (∃ es' ns', Pending (ts ++ us) es' ns' ∧
      steps ⟨es, Node.visible ns⟩ us = .ok ⟨es', Node.visible ns'⟩) ∨
    ∃ err, steps ⟨es, Node.visible ns⟩ us = .error err ∧ Misfit (ts ++ us) err := by
  induction us generalizing ts es ns with
  | nil => exact .inl ⟨es, ns, by simpa using h, rfl⟩
  | cons t us ih =>
    rw [steps]
    rcases step_pending h t with ⟨es', ns', hp, hstep⟩ | ⟨err, hstep, hmisfit⟩
    · rw [hstep]
      simpa using ih hp
    · exact .inr ⟨err, by rw [hstep], hmisfit us⟩

end Growth

/-! ## Documents -/

namespace Node

theorem ofTokens_balanced (h : Balanced ts ns) :
    ofTokens ts = Growth.finish ⟨[], visible ns⟩ := by
  have hsteps := Growth.steps_pending (.top h) []
  rw [List.append_nil] at hsteps
  rw [ofTokens, hsteps]
  rfl

/-- One node of balanced tokens that is not a blank text has blank texts around it. -/
theorem visible_eq_singleton {r : Node} (h : Balanced ts ns) (hr : visible ns = [r]) :
    ∃ before root after, ts = before ++ root ++ after ∧ (∀ t ∈ before, t.isSpacing = true) ∧
      (∀ t ∈ after, t.isSpacing = true) ∧ Balanced root [r] := by
  obtain ⟨us, vs, rfl, hus, _, hvs⟩ := List.filter_eq_cons_iff.mp hr
  have hus : ∀ n ∈ us, n.isSpacing = true := fun n hn => by simpa using hus n hn
  have hvs : ∀ n ∈ vs, n.isSpacing = true := fun n hn => by
    simpa using List.filter_eq_nil_iff.mp hvs n hn
  obtain ⟨before, rest, rfl, hbefore, hrest⟩ := h.exists_append
  have hrest : Balanced rest ([r] ++ vs) := hrest
  obtain ⟨root, after, rfl, hroot, hafter⟩ := hrest.exists_append
  exact ⟨before, root, after, by simp, hbefore.isSpacing_tokens hus,
    hafter.isSpacing_tokens hvs, hroot⟩

theorem visible_eq_nil (h : ∀ n ∈ ns, n.isSpacing = true) : visible ns = [] := by
  simpa [visible] using h

theorem exists_visible {before root after : List Token} {r : Node}
    (hbefore : ∀ t ∈ before, t.isSpacing = true) (hafter : ∀ t ∈ after, t.isSpacing = true)
    (hroot : Balanced root [r]) (hr : r.isElement = true) :
    ∃ ns, Balanced (before ++ root ++ after) ns ∧ visible ns = [r] := by
  obtain ⟨us, hus, hub⟩ := Balanced.exists_of_isSpacing hbefore
  obtain ⟨vs, hvs, hvb⟩ := Balanced.exists_of_isSpacing hafter
  refine ⟨us ++ [r] ++ vs, (hus.append hroot).append hvs, ?_⟩
  have hrb : r.isSpacing = false := by
    cases r with
    | element => rfl
    | document | text => cases hr
  have hu : us.filter (!·.isSpacing) = [] := visible_eq_nil hub
  have hv : vs.filter (!·.isSpacing) = [] := visible_eq_nil hvb
  simp [visible, hu, hv, hrb]

theorem finish_cases (roots : List Node) :
    (∃ r, roots = [r] ∧ r.isElement = true ∧ Growth.finish ⟨[], roots⟩ = .ok (.document [r])) ∨
    (2 ≤ roots.length ∧ Growth.finish ⟨[], roots⟩ = .error .manyRoots) ∨
    (roots.length < 2 ∧ (∀ r ∈ roots, r.isElement = false) ∧
      Growth.finish ⟨[], roots⟩ = .error .noRoot) := by
  cases roots with
  | nil => exact .inr (.inr ⟨by simp, by simp, rfl⟩)
  | cons r rs =>
    cases rs with
    | nil =>
      cases r with
      | element => exact .inl ⟨_, rfl, rfl, rfl⟩
      | document | text => exact .inr (.inr ⟨by simp, by simp [isElement], rfl⟩)
    | cons r' rs =>
      refine .inr (.inl ⟨by simp, ?_⟩)
      cases r <;> rfl

theorem ofTokens_of_misfit {err : TreeError} (h : Misfit ts err) : ofTokens ts = .error err := by
  cases h with
  | @unexpectedEnd before after tag ns hts h =>
    rw [hts, ofTokens, Growth.steps_pending (.top h)]
    rfl
  | @mismatchedEnd before after tag e es ns hts h htag =>
    rw [hts, ofTokens, Growth.steps_pending h]
    simp [Growth.steps, Growth.step, htag]
  | @unclosed e es ns h =>
    have hsteps := Growth.steps_pending h []
    rw [List.append_nil] at hsteps
    rw [ofTokens, hsteps]
    rfl
  | @manyRoots ns h hns =>
    rw [ofTokens_balanced h]
    rcases finish_cases (visible ns) with ⟨r, hr, _⟩ | ⟨_, hf⟩ | ⟨hlt, _⟩
    · simp [hr] at hns
    · exact hf
    · omega
  | @noRoot ns h hns hr =>
    rw [ofTokens_balanced h]
    rcases finish_cases (visible ns) with ⟨r, hone, hr', _⟩ | ⟨hle, _⟩ | ⟨_, _, hf⟩
    · simp [hone, hr'] at hr
    · omega
    · exact hf

theorem ofTokens_cases (ts : List Token) :
    (∃ ns r, Balanced ts ns ∧ visible ns = [r] ∧ r.isElement = true ∧
      ofTokens ts = .ok (.document [r])) ∨
    ∃ err, ofTokens ts = .error err ∧ Misfit ts err := by
  have hempty : Pending [] [] [] := .top .nil
  rcases Growth.steps_cases hempty ts with ⟨es, ns, hp, _⟩ | ⟨err, _, hmisfit⟩
  · rw [List.nil_append] at hp
    cases hp with
    | top h =>
      rcases finish_cases (visible ns) with ⟨r, hr, hel, hf⟩ | ⟨hle, _⟩ | ⟨hlt, hr, _⟩
      · exact .inl ⟨ns, r, h, hr, hel, by rw [ofTokens_balanced h, hf]⟩
      · have hmisfit := Misfit.manyRoots h hle
        exact .inr ⟨_, ofTokens_of_misfit hmisfit, hmisfit⟩
      · have hmisfit := Misfit.noRoot h hlt hr
        exact .inr ⟨_, ofTokens_of_misfit hmisfit, hmisfit⟩
    | inside tag as h hc =>
      have hmisfit := Misfit.unclosed (Pending.inside tag as h hc)
      exact .inr ⟨_, ofTokens_of_misfit hmisfit, hmisfit⟩
  · exact .inr ⟨err, ofTokens_of_misfit hmisfit, hmisfit⟩

/-- A tree is built exactly from blank texts, the tokens of one element, and blank texts:
it is the tree of that element. A list that is refused is refused for its misfit. -/
theorem ofTokens_grammar (ts : List Token) :
    (∀ n, ofTokens ts = .ok n ↔ ∃ before root after r, ts = before ++ root ++ after ∧
      (∀ t ∈ before, t.isSpacing = true) ∧ (∀ t ∈ after, t.isSpacing = true) ∧
      Balanced root [r] ∧ r.isElement = true ∧ n = .document [r]) ∧
    ∀ err, ofTokens ts = .error err ↔ Misfit ts err := by
  refine ⟨fun n => ⟨fun hn => ?_, ?_⟩, fun err => ⟨fun herr => ?_, ofTokens_of_misfit⟩⟩
  · rcases ofTokens_cases ts with ⟨ns, r, h, hr, hel, hok⟩ | ⟨err, herr, _⟩
    · obtain ⟨before, root, after, hts, hbefore, hafter, hroot⟩ := visible_eq_singleton h hr
      cases hn.symm.trans hok
      exact ⟨before, root, after, r, hts, hbefore, hafter, hroot, hel, rfl⟩
    · cases hn.symm.trans herr
  · rintro ⟨before, root, after, r, rfl, hbefore, hafter, hroot, hel, rfl⟩
    obtain ⟨ns, h, hr⟩ := exists_visible hbefore hafter hroot hel
    rw [ofTokens_balanced h, hr]
    cases r with
    | element => rfl
    | document | text => cases hel
  · rcases ofTokens_cases ts with ⟨_, _, _, _, _, hok⟩ | ⟨err', herr', hmisfit⟩
    · cases herr.symm.trans hok
    · cases herr.symm.trans herr'
      exact hmisfit

end Node
end Stencil.Markup
