import Stencil.Proofs.Template.Registering

/-! What drafts keep. A property of the empty draft that is kept by each small change holds
for all drafts that are finished, so every template of a catalog comes from one that has it. -/
namespace Stencil
open Binding Markup

namespace Draft

/-- What each change of a draft keeps. -/
structure Kept (I : Draft → Prop) : Prop where
  empty : I {}
  plant : ∀ {d} s, I d → I (d.plant s)
  wire : ∀ {d} x, I d → I (d.wire x)
  append : ∀ {d} parent s, I d → I (d.append parent s)
  setText : ∀ {d} ss s, I d → I (d.compute ss (.setText s))
  setAttribute : ∀ {d} ss tag svg s name bare, I d →
    I (d.compute ss (attributeSetter tag svg s name bare))
  addAnchor : ∀ {d} dir name path parent, I d → I (d.addAnchor dir name path parent)

namespace Kept

variable {I : Draft → Prop} {d e : Draft} {parent : Parent}

theorem addText (h : Kept I) {raw : String} (hd : I d) (he : d.addText raw parent = .ok e) :
    I e := by
  unfold Draft.addText at he
  cases hr : Segment.readAll (tidy raw) with
  | error err => simp [hr] at he
  | ok ss =>
    simp only [hr, Except.ok.injEq] at he
    subst he
    refine h.append parent _ ?_
    split
    · exact h.setText ss _ (h.plant _ hd)
    · exact h.plant _ hd

theorem addAttribute (h : Kept I) {tag : String} {svg : Bool} {s : Slot} {a : Attribute} (hd : I d)
    (he : d.addAttribute tag svg s a = .ok e) : I e := by
  unfold Draft.addAttribute at he
  cases hr : Segment.readAll (tidy a.value) with
  | error err => simp [hr] at he
  | ok ss =>
    simp only [hr, Except.ok.injEq] at he
    subst he
    split <;> split
    · exact h.setAttribute ss tag svg s a.name _ (h.wire _ hd)
    · exact h.setAttribute ss tag svg s a.name _ hd
    · exact h.wire _ hd
    · exact hd

theorem addAttributes (h : Kept I) {tag : String} {svg : Bool} {s : Slot} (as : List Attribute) :
    ∀ {d e : Draft}, I d → d.addAttributes tag svg s as = .ok e → I e := by
  induction as with
  | nil =>
    intro d e hd he
    cases he
    exact hd
  | cons a as ih =>
    intro d e hd he
    rw [Draft.addAttributes] at he
    cases ha : d.addAttribute tag svg s a with
    | error err => simp [ha] at he
    | ok d₁ =>
      simp only [ha] at he
      exact ih (h.addAttribute hd ha) he

theorem addElement (h : Kept I) {tag : String} {svg : Bool} {as : List Attribute} (hd : I d)
    (he : d.addElement tag svg as parent = .ok e) : I e := by
  unfold Draft.addElement at he
  cases ha : (d.plant (.element d.next tag svg)).addAttributes tag svg d.next as with
  | error err => simp [ha] at he
  | ok d₁ =>
    simp only [ha, Except.ok.injEq] at he
    subst he
    exact h.append parent _ (h.addAttributes as (h.plant _ hd) ha)

end Kept
end Draft

/-- The template is a finished draft with the property. -/
def Template.Of (I : Draft → Prop) (t : Template) : Prop := ∃ d, I d ∧ t = d.finish t.name

namespace Builder

variable {I : Draft → Prop} {a b : Builder}

/-- The builder keeps the property in its draft, and the templates that it adds have it. -/
def Keeps (I : Draft → Prop) (b : Builder) : Prop := ∀ parent svg d w, I d →
  w.catalog.Gains (Template.Of I) (b parent svg d w).2.catalog ∧
    ∀ e, (b parent svg d w).1 = .ok e → I e

theorem keeps_nothing : Keeps I nothing := fun _ _ _ _ hd =>
  ⟨.of_eq rfl, fun e he => by cases he; exact hd⟩

theorem Keeps.andThen (ha : Keeps I a) (hb : Keeps I b) : Keeps I (andThen a b) := by
  intro parent svg d w hd
  obtain ⟨hg₁, h₁⟩ := ha parent svg d w hd
  unfold Builder.andThen
  generalize a parent svg d w = r at hg₁ h₁
  obtain ⟨err | d₁, w₁⟩ := r
  · exact ⟨hg₁, fun e he => by cases he⟩
  · obtain ⟨hg₂, h₂⟩ := hb parent svg d₁ w₁ (h₁ d₁ rfl)
    exact ⟨hg₁.trans hg₂, h₂⟩

theorem keeps_text (h : Draft.Kept I) (raw : String) : Keeps I (text raw) := fun _ _ _ _ hd =>
  ⟨.of_eq rfl, fun _ he => h.addText hd he⟩

theorem Keeps.element (h : Draft.Kept I) {C : Builder} (hC : Keeps I C) (tag : String)
    (as : List Attribute) : Keeps I (element tag as C) := by
  intro parent inSvg d w hd
  unfold Builder.element
  dsimp only
  cases hadd : d.addElement tag (inSvg || Vocabulary.isSvgTag tag) as parent with
  | error err => exact ⟨.of_eq rfl, fun e he => by cases he⟩
  | ok d₁ => exact hC _ _ d₁ w (h.addElement hd hadd)

theorem Keeps.register (h : Draft.Kept I) (hb : Keeps I b) (name : String) (svg : Bool)
    (w : Workshop) : w.catalog.Gains (Template.Of I) (register name svg b w).2.catalog := by
  unfold Builder.register
  split
  · exact .of_eq rfl
  · obtain ⟨hg, hd⟩ := hb .root svg {} { w with catalog := w.catalog.reserve name } h.empty
    generalize b .root svg {} { w with catalog := w.catalog.reserve name } = r at hg hd
    have hg₁ : w.catalog.Gains (Template.Of I) r.2.catalog := hg.congr_left rfl
    obtain ⟨err | d, w₁⟩ := r
    · exact hg₁
    · dsimp only
      split
      · exact hg₁.trans (.of_eq rfl)
      · rename_i hfree
        have hadd : Catalog.Gains (Template.Of I) (w₁.catalog.free name)
            ((w₁.catalog.free name).add (d.finish name)) :=
          .add ⟨d, hd d rfl, rfl⟩ (Bool.eq_false_iff.mpr hfree)
        exact hg₁.trans (hadd.congr_left rfl)

theorem Keeps.nest (h : Draft.Kept I) (hb : Keeps I b) (tag : String) (dir : Directive)
    (value : String) : Keeps I (nest tag dir value b) := by
  intro parent svg d w hd
  unfold Builder.nest
  cases Path.ofDirective value with
  | error err => exact ⟨.of_eq rfl, fun e he => by cases he⟩
  | ok path =>
    dsimp only
    have hcat : (w.catalog.freshName dir).2.templates = w.catalog.templates := rfl
    generalize w.catalog.freshName dir = fresh at hcat ⊢
    obtain ⟨name, cat⟩ := fresh
    have hg := hb.register h name svg ({ w with catalog := cat }.tell (.spawned dir value tag name))
    have hg₁ := hg.congr_left (c := w.catalog) hcat
    generalize Builder.register name svg b ({ w with catalog := cat }.tell _) = r at hg₁ ⊢
    obtain ⟨err | ⟨⟩, w₁⟩ := r
    · exact ⟨hg₁, fun e he => by cases he⟩
    · refine ⟨hg₁, fun e he => ?_⟩
      cases he
      exact h.addAnchor dir name path parent hd

theorem keeps_ofNode (h : Draft.Kept I) (n : Node) : Keeps I (ofNode n) := by
  have hkept : Tracer.Kept fun b _ => Keeps I b := {
    nothing := keeps_nothing
    andThen := fun ha hb => ha.andThen hb
    text := keeps_text h
    element := fun tag as hb => hb.element h tag as
    nest := fun tag dir value hb => hb.nest h tag dir value }
  exact hkept.ofNode n

end Builder

/-- Every template of a catalog comes from a draft with the property. -/
theorem Draft.Kept.of_compileAll {I : Draft → Prop} (h : Draft.Kept I)
    (calls : List (Node × String)) :
    ∀ t ∈ (Workshop.compileAll calls {}).catalog.templates, t.Of I := by
  have hgains : ∀ w : Workshop, w.catalog.Gains (Template.Of I) (w.compileAll calls).catalog := by
    induction calls with
    | nil => exact fun w => .of_eq rfl
    | cons call calls ih =>
      intro w
      have hcall : w.catalog.Gains (Template.Of I) (w.compile call.1 call.2).2.catalog := by
        rw [Workshop.catalog_compile]
        exact (Builder.keeps_ofNode h call.1).register h call.2 false w
      exact hcall.trans (ih _)
  exact (hgains {}).forall_mem fun t ht => by cases ht

end Stencil
