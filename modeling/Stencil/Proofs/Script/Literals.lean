import Stencil.Proofs.Script.Scanner
import Stencil.Proofs.Script.Splicing

/-! Literals of scripts. Texts of the user are found in string literals and nowhere else: a
script read back from left to right has one literal for each text, in order, and without
its literals it depends on the shape of the templates only. -/
namespace Stencil
open Binding Markup Text

/-! ## Texts -/

def Seed.texts : Seed → List String
  | .element _ tag true => [Vocabulary.svgNamespace, tag]
  | .element _ tag false => [tag]
  | .text _ content => [content]
  | .anchor _ => [""]

def Wire.texts : Wire → List String
  | .append _ _ => []
  | .attr _ space name value => space.toList ++ [name, value]

def Binding.Part.texts : Part → List String
  | .literal s => [s]
  | .var _ => []

/-- Where nothing is interpolated an empty text stands. -/
def Binding.Interpolation.texts (i : Interpolation) : List String :=
  if i = [] then [""] else i.flatMap Part.texts

namespace Computation

/-- The texts that remove an attribute. -/
def removalTexts (name : String) : List String :=
  if name = Vocabulary.xlinkHref then [Vocabulary.xlinkNamespace, "href"] else [name]

/-- The property that is cleared along with an attribute. -/
def clearingTexts : Computation → List String
  | .setProperty _ name _ => [name]
  | _ => []

def texts : Computation → List String
  | .setText _ value => value.texts
  | .setProperty _ _ value => value.texts
  | .setAttribute _ space name value => space.toList ++ name :: value.texts
  | .unlessFalse _ name _ setter => removalTexts name ++ setter.clearingTexts ++ setter.texts
  | .reconcile _ template _ _ _ => [template]

end Computation

/-- The texts of a template in the order of its script. Variables begin with the empty one. -/
def Template.texts (t : Template) : List String :=
  List.replicate t.varCount "" ++ t.computations.flatMap Computation.texts ++
    t.routes.map Route.key ++ (t.seeds.flatMap Seed.texts ++ t.wires.flatMap Wire.texts)

def Catalog.texts (c : Catalog) : Format → List String
  | .exports => "yate" :: c.templates.flatMap fun t => t.name :: t.texts
  | .window => c.templates.flatMap fun t => t.name :: t.texts

/-! ## Shapes -/

def Seed.blank : Seed → Seed
  | .element s _ svg => .element s "" svg
  | .text s _ => .text s ""
  | .anchor s => .anchor s

def Wire.blank : Wire → Wire
  | .append parent child => .append parent child
  | .attr n space _ _ => .attr n (space.map fun _ => "") "" ""

def Binding.Part.blank : Part → Part
  | .literal _ => .literal ""
  | .var v => .var v

/-- The link attribute is removed in a way of its own, so it stays apart from others. -/
def Computation.blank : Computation → Computation
  | .setText n value => .setText n (value.map Part.blank)
  | .setProperty n name value => .setProperty n name (value.map Part.blank)
  | .setAttribute n space _ value =>
    .setAttribute n (space.map fun _ => "") "" (value.map Part.blank)
  | .unlessFalse n name v setter =>
    .unlessFalse n (if name = Vocabulary.xlinkHref then name else "") v setter.blank
  | .reconcile d _ anchor v g => .reconcile d "" anchor v g

/-- The template with all texts of the user emptied; properties and ways to variables stay. -/
def Template.blank (t : Template) : Template :=
  { t with
    name := ""
    seeds := t.seeds.map Seed.blank
    wires := t.wires.map Wire.blank
    computations := t.computations.map Computation.blank
    routes := t.routes.map fun r => { r with key := "" } }

def Catalog.blank (c : Catalog) : Catalog := { templates := c.templates.map Template.blank }

theorem Computation.spliced_blank (x : Computation) : x.blank.spliced = x.spliced := by
  induction x with
  | unlessFalse _ _ _ _ ih => exact ih
  | _ => rfl

theorem Template.spliced_blank (t : Template) : t.blank.spliced = t.spliced := by
  have hroute : ∀ r : Route, Route.spliced { r with key := "" } = r.spliced := fun _ => rfl
  simp only [spliced, blank, List.flatMap_map, Computation.spliced_blank, hroute]

theorem Catalog.spliced_blank (c : Catalog) : c.blank.spliced = c.spliced := by
  simp only [spliced, blank, List.flatMap_map, Template.spliced_blank]

namespace Template

theorem rootSlots_blank (t : Template) : t.blank.rootSlots = t.rootSlots := by
  unfold rootSlots
  rw [blank, List.filterMap_map]
  congr 1
  funext x
  cases x <;> rfl

theorem rootGroups_blank (t : Template) : t.blank.rootGroups = t.rootGroups := by
  unfold rootGroups
  rw [rootSlots_blank, blank, List.filterMap_map]
  congr 1
  funext x
  cases x <;> rfl

end Template

namespace Script

/-! ## Numbers -/

theorem plain_digits (n : Nat) : '"' ∉ Nat.toDigits 16 n := by
  have hdigit : ∀ k < 16, Nat.digitChar k ≠ '"' := by decide
  intro h
  obtain ⟨k, hk, hc⟩ := exists_digitChar_of_mem h
  exact hdigit k hk hc

theorem plain_toString (n : Nat) : Plain (toString n) := by
  unfold Plain
  rw [Nat.toString_eq_ofList_toDigits, String.toList_ofList]
  exact fun h => absurd (Nat.isDigit_of_mem_toDigits (by decide) (by decide) h) (by decide)

theorem plain_node (s : Slot) : Plain (node s) := by
  refine Plain.append (by decide) ?_
  unfold Plain
  rw [String.toList_ofList]
  exact plain_digits s

theorem plain_var (v : Var) : Plain (var v) := Plain.append (by decide) (plain_toString v)

theorem plain_group (g : Group) : Plain (group g) := Plain.append (by decide) (plain_toString g)

/-! ## Parts of a script -/

/-- A method of a node is called. -/
theorem coincide_call (s : Slot) {method sep : String} (hmethod : Plain method) (hsep : Plain sep)
    {xs ys ps qs : List String} (h : CoincideAll xs ys ps qs) :
    Coincide (node s ++ method ++ args sep xs) (node s ++ method ++ args sep ys) ps qs :=
  ((plain_node s).append hmethod).append_coincide (coincide_args hsep h)

theorem coincide_seed (s : Seed) : Coincide (seed s) (seed s.blank) s.texts s.blank.texts := by
  cases s with
  | element s tag svg =>
    have htag := CoincideAll.cons (coincide_quote tag "") .nil
    cases svg with
    | true => exact coincide_call s (by decide) (by decide) (.cons (coincide_quote _ _) htag)
    | false => exact coincide_call s (by decide) (by decide) htag
  | text s content =>
    exact coincide_call s (by decide) (by decide) (.cons (coincide_quote content "") .nil)
  | anchor s => exact coincide_call s (by decide) (by decide) (.cons (coincide_quote "" "") .nil)

theorem coincide_wire (w : Wire) : Coincide (wire w) (wire w.blank) w.texts w.blank.texts := by
  cases w with
  | append parent child =>
    have hchild := CoincideAll.cons (plain_node child).coincide .nil
    cases parent with
    | root => exact Plain.append_coincide (by decide) (coincide_args (by decide) hchild)
    | slot p => exact coincide_call p (by decide) (by decide) hchild
  | attr n space name value =>
    have hargs := CoincideAll.cons (coincide_quote name "") (.cons (coincide_quote value "") .nil)
    cases space with
    | none => exact coincide_call n (by decide) (by decide) hargs
    | some space =>
      exact coincide_call n (by decide) (by decide) (.cons (coincide_quote space "") hargs)

theorem coincide_part (p : Part) : Coincide (part p) (part p.blank) p.texts p.blank.texts := by
  cases p with
  | literal s => exact coincide_quote s ""
  | var v =>
    have hargs : CoincideAll [var v] [var v] [] [] := .cons (plain_var v).coincide .nil
    exact Plain.append_coincide (by decide) (coincide_args (by decide) hargs)

theorem coincide_expression (i : Interpolation) : Coincide (expression i)
    (expression (i.map Part.blank)) i.texts (Interpolation.texts (i.map Part.blank)) := by
  cases i with
  | nil => exact coincide_quote "" ""
  | cons p ps =>
    have hall : CoincideAll ((p :: ps).map part) (((p :: ps).map Part.blank).map part)
        ((p :: ps).flatMap Part.texts) (((p :: ps).map Part.blank).flatMap Part.texts) := by
      refine coincideAll_map ?_
      rw [List.forall₂_map_right_iff, List.forall₂_same]
      exact fun q _ => coincide_part q
    exact hall.intercalate (by decide)

/-- A lone variable has no texts either way. -/
theorem coincide_propertyValue (i : Interpolation) : Coincide (propertyValue i)
    (propertyValue (i.map Part.blank)) i.texts (Interpolation.texts (i.map Part.blank)) := by
  match i with
  | [.var v] => exact (plain_var v).coincide
  | [] | [.literal _] | .literal _ :: _ :: _ | .var _ :: _ :: _ => exact coincide_expression _

theorem coincide_removal (n : Slot) (name : String) :
    let name' := if name = Vocabulary.xlinkHref then name else ""
    Coincide (removal n name) (removal n name') (Computation.removalTexts name)
      (Computation.removalTexts name') := by
  intro name'
  by_cases hname : name = Vocabulary.xlinkHref
  · have hsame : name' = name := if_pos hname
    rw [hsame, removal, Computation.removalTexts, if_pos hname, if_pos hname]
    exact coincide_call n (by decide) (by decide)
      (.cons (coincide_quote _ _) (.cons (coincide_quote _ _) .nil))
  · have hempty : name' = "" := if_neg hname
    have hne : ¬ "" = Vocabulary.xlinkHref := by decide
    rw [hempty, removal, removal, Computation.removalTexts, Computation.removalTexts, if_neg hname,
      if_neg hname, if_neg hne, if_neg hne]
    exact coincide_call n (by decide) (by decide) (.cons (coincide_quote name "") .nil)

theorem coincide_clearing (n : Slot) (x : Computation) : Coincide (clearing n x)
    (clearing n x.blank) x.clearingTexts x.blank.clearingTexts := by
  cases x with
  | setProperty _ name _ =>
    exact (Plain.append_coincide (by decide) (coincide_args (by decide)
      (.cons (plain_node n).coincide (.cons (coincide_quote name name) .nil)))).append_plain
      (by decide)
  | _ => exact plain_empty.coincide

theorem coincide_computation {x : Computation} (h : ∀ s ∈ x.spliced, Plain s) :
    Coincide (computation x) (computation x.blank) x.texts x.blank.texts := by
  induction x with
  | setText n value =>
    exact ((plain_node n).append (by decide)).append_coincide (coincide_expression value)
  | setProperty n name value =>
    have hname : Plain name := h name (List.mem_singleton_self name)
    exact ((((plain_node n).append (by decide)).append hname).append (by decide)).append_coincide
      (coincide_propertyValue value)
  | setAttribute n space name value =>
    have hargs := CoincideAll.cons (coincide_quote name "") (.cons (coincide_expression value) .nil)
    rw [List.append_nil, List.append_nil] at hargs
    cases space with
    | none => exact coincide_call n (by decide) (by decide) hargs
    | some space =>
      exact coincide_call n (by decide) (by decide) (.cons (coincide_quote space "") hargs)
  | unlessFalse n name v setter ih =>
    have hguard : Plain ("if (" ++ var v ++ "===false) \x7b") :=
      (Plain.append (by decide) (plain_var v)).append (by decide)
    have hremoval := (hguard.append_coincide (coincide_removal n name)).append_plain
      (z := ";") (by decide)
    have hclearing := (hremoval.append (coincide_clearing n setter)).append_plain
      (z := "return;\x7d") (by decide)
    exact hclearing.append (ih h)
  | reconcile d template anchor v g =>
    have hcall : Plain (call d) := by cases d <;> decide
    refine (Plain.append (by decide) hcall).append_coincide (coincide_args (by decide)
      (.cons (coincide_quote template "") ?_))
    refine coincideAll_plain fun x hx => ?_
    simp only [List.mem_cons, List.not_mem_nil, or_false] at hx
    rcases hx with rfl | rfl | rfl | rfl
    · exact plain_node anchor
    · exact plain_var v
    · decide
    · exact plain_group g

theorem plain_route {r : Route} (h : ∀ s ∈ r.spliced, Plain s) : Plain (route r) := by
  refine (Plain.append (by decide) (Plain.intercalate (by decide) fun x hx => ?_)).append
    (by decide)
  rcases List.mem_append.mp hx with hx | hx
  · obtain ⟨b, hb, rfl⟩ := List.mem_map.mp hx
    refine ((plain_var b.1).append (by decide)).append (plain_join fun y hy => ?_)
    obtain ⟨s, hs, rfl⟩ := List.mem_map.mp hy
    exact Plain.append (by decide) (h s (List.mem_flatMap.mpr ⟨b, hb, hs⟩))
  · obtain ⟨k, _, rfl⟩ := List.mem_map.mp hx
    exact (Plain.append (by decide) (plain_toString k)).append (by decide)

/-! ## Sections of a script -/

theorem declarations_blank (t : Template) : declarations t.blank = declarations t := by
  have hslot : ∀ s : Seed, s.blank.slot = s.slot := fun s => by cases s <;> rfl
  simp only [declarations, Template.blank, List.map_map, Function.comp_def, hslot]

theorem coincide_declarations (t : Template) : Coincide (declarations t) (declarations t)
    (List.replicate t.varCount "") (List.replicate t.varCount "") := by
  have hvar : ∀ v, Coincide (var v ++ "=\"\"") (var v ++ "=\"\"") [""] [""] := by
    intro v
    have hliteral : "=\"\"" = "=" ++ quote "" := by decide +kernel
    rw [hliteral, ← String.append_assoc]
    exact ((plain_var v).append (by decide)).append_coincide (coincide_quote "" "")
  have htexts : (List.range t.varCount).flatMap (fun _ => [""]) = List.replicate t.varCount "" := by
    rw [← List.map_eq_flatMap]
    simp
  have hnodes : CoincideAll (t.seeds.map fun s => node s.slot)
      (t.seeds.map fun s => node s.slot) [] [] := by
    refine coincideAll_plain fun x hx => ?_
    obtain ⟨s, _, rfl⟩ := List.mem_map.mp hx
    exact plain_node s.slot
  have hvars : CoincideAll ((List.range t.varCount).map fun v => var v ++ "=\"\"")
      ((List.range t.varCount).map fun v => var v ++ "=\"\"") (List.replicate t.varCount "")
      (List.replicate t.varCount "") := by
    rw [← htexts]
    exact coincideAll_map (List.forall₂_same.mpr fun v _ => hvar v)
  have hgroups : CoincideAll ((List.range t.groupCount).map fun g => group g ++ "=[]")
      ((List.range t.groupCount).map fun g => group g ++ "=[]") [] [] := by
    refine coincideAll_plain fun x hx => ?_
    obtain ⟨g, _, rfl⟩ := List.mem_map.mp hx
    exact (plain_group g).append (by decide)
  have hall := (hnodes.append hvars).append hgroups
  rw [List.nil_append, List.append_nil] at hall
  unfold declarations
  dsimp only
  split
  · rename_i hempty
    rw [hempty] at hall
    exact hall.intercalate plain_empty
  · exact (Plain.append_coincide (by decide) (hall.intercalate (by decide))).append_plain
      (by decide)

theorem coincide_functions {xs : List Computation} (h : ∀ x ∈ xs, ∀ s ∈ x.spliced, Plain s) :
    Coincide (functions xs) (functions (xs.map Computation.blank)) (xs.flatMap Computation.texts)
      ((xs.map Computation.blank).flatMap Computation.texts) := by
  suffices hall : ∀ k, CoincideAll
      ((xs.zipIdx k).map fun c => "\t\t" ++ toString c.2 ++ ":function()\x7b" ++
        computation c.1 ++ "\x7d")
      (((xs.map Computation.blank).zipIdx k).map fun c =>
        "\t\t" ++ toString c.2 ++ ":function()\x7b" ++ computation c.1 ++ "\x7d")
      (xs.flatMap Computation.texts) ((xs.map Computation.blank).flatMap Computation.texts) from
    (hall 0).intercalate (by decide)
  induction xs with
  | nil => exact fun _ => .nil
  | cons x xs ih =>
    intro k
    have hhead : Plain ("\t\t" ++ toString k ++ ":function()\x7b") :=
      (Plain.append (by decide) (plain_toString k)).append (by decide)
    have hx := coincide_computation (h x List.mem_cons_self)
    exact .cons ((hhead.append_coincide hx).append_plain (by decide))
      (ih (fun y hy => h y (List.mem_cons_of_mem _ hy)) (k + 1))

theorem coincide_updates {rs : List Route} (h : ∀ r ∈ rs, ∀ s ∈ r.spliced, Plain s) :
    Coincide (updates rs) (updates (rs.map fun r => { r with key := "" })) (rs.map Route.key)
      ((rs.map fun r : Route => { r with key := "" }).map Route.key) := by
  have hkeys : ∀ l : List Route, l.map Route.key = l.flatMap fun r => [r.key] := fun _ =>
    List.map_eq_flatMap
  rw [hkeys, hkeys]
  refine CoincideAll.intercalate (by decide) (coincideAll_map ?_)
  rw [List.forall₂_map_right_iff, List.forall₂_same]
  intro r hr
  exact ((Plain.append_coincide (by decide) (coincide_quote r.key "")).append_plain
    (by decide)).append_plain (plain_route (h r hr))

theorem coincide_creation (t : Template) : Coincide (creation t) (creation t.blank)
    (t.seeds.flatMap Seed.texts ++ t.wires.flatMap Wire.texts)
    (t.blank.seeds.flatMap Seed.texts ++ t.blank.wires.flatMap Wire.texts) := by
  have hseeds : CoincideAll (t.seeds.map seed) (t.blank.seeds.map seed)
      (t.seeds.flatMap Seed.texts) (t.blank.seeds.flatMap Seed.texts) := by
    refine coincideAll_map ?_
    rw [Template.blank, List.forall₂_map_right_iff, List.forall₂_same]
    exact fun s _ => coincide_seed s
  have hwires : CoincideAll (t.wires.map wire) (t.blank.wires.map wire)
      (t.wires.flatMap Wire.texts) (t.blank.wires.flatMap Wire.texts) := by
    refine coincideAll_map ?_
    rw [Template.blank, List.forall₂_map_right_iff, List.forall₂_same]
    exact fun w _ => coincide_wire w
  exact ((hseeds.append hwires).wrap (by decide) (by decide)).intercalate (by decide)

theorem removals_blank (t : Template) : removals t.blank = removals t := by
  rw [removals, removals, Template.rootGroups_blank, Template.rootSlots_blank]

theorem plain_removals (t : Template) : Plain (removals t) := by
  refine plain_join fun x hx => ?_
  rcases List.mem_append.mp hx with hx | hx
  · obtain ⟨g, _, rfl⟩ := List.mem_map.mp hx
    exact (Plain.append (by decide) (plain_group g)).append (by decide)
  · obtain ⟨s, _, rfl⟩ := List.mem_map.mp hx
    have hnode := plain_node s
    have hline : ∀ {a b : String}, Plain a → Plain b → Plain (a ++ node s ++ b) := fun ha hb =>
      (ha.append hnode).append hb
    unfold removeNode
    refine hline (hline (Plain.append (hline (hline (hline ?_ ?_) ?_) ?_) ?_) ?_) ?_ <;>
      decide +kernel

theorem coincide_script {t : Template} (h : ∀ s ∈ t.spliced, Plain s) :
    Coincide t.script t.blank.script t.texts t.blank.texts := by
  have hdeclarations := coincide_declarations t
  have hfunctions : Coincide (functions t.computations) (functions t.blank.computations)
      (t.computations.flatMap Computation.texts) (t.blank.computations.flatMap Computation.texts) :=
    coincide_functions fun x hx s hs =>
      h s (List.mem_append_left _ (List.mem_flatMap.mpr ⟨x, hx, hs⟩))
  have hupdates : Coincide (updates t.routes) (updates t.blank.routes) (t.routes.map Route.key)
      (t.blank.routes.map Route.key) :=
    coincide_updates fun r hr s hs =>
      h s (List.mem_append_right _ (List.mem_flatMap.mpr ⟨r, hr, hs⟩))
  have hcreation := coincide_creation t
  have hremovals := plain_removals t
  unfold Template.script
  simp only [declarations_blank, removals_blank]
  -- from the end of the script: the lines that all templates have, and the sections between
  repeat with_reducible refine Coincide.append_plain ?_ (by decide +kernel)
  refine Coincide.append_plain ?_ hremovals
  repeat with_reducible refine Coincide.append_plain ?_ (by decide +kernel)
  refine Coincide.append ?_ hcreation
  repeat with_reducible refine Coincide.append_plain ?_ (by decide +kernel)
  refine Coincide.append ?_ hupdates
  repeat with_reducible refine Coincide.append_plain ?_ (by decide +kernel)
  refine Coincide.append ?_ hfunctions
  repeat with_reducible refine Coincide.append_plain ?_ (by decide +kernel)
  exact Plain.append_coincide (by decide) hdeclarations

theorem coincide_scriptFields {c : Catalog} (h : ∀ s ∈ c.spliced, Plain s) :
    Coincide c.scriptFields c.blank.scriptFields (c.templates.flatMap fun t => t.name :: t.texts)
      (c.blank.templates.flatMap fun t => t.name :: t.texts) := by
  refine CoincideAll.intercalate (by decide) (coincideAll_map ?_)
  rw [Catalog.blank, List.forall₂_map_right_iff, List.forall₂_same]
  intro t ht
  have hscript := coincide_script fun s hs => h s (List.mem_flatMap.mpr ⟨t, ht, hs⟩)
  exact ((coincide_quote t.name "").append_plain (by decide)).append hscript

theorem coincide_artifact {c : Catalog} (h : ∀ s ∈ c.spliced, Plain s) (format : Format) :
    Coincide (c.artifact format) (c.blank.artifact format) (c.texts format)
      (c.blank.texts format) := by
  have hfields := coincide_scriptFields h
  unfold Catalog.artifact Catalog.texts
  cases format with
  | exports =>
    have hhead : "const yate = require(\"yate\");\nmodule.exports = \x7b" =
        "const yate = require(" ++ quote "yate" ++ ");\nmodule.exports = \x7b" := by decide +kernel
    have hyate : Coincide _ _ ["yate"] ["yate"] :=
      ((Plain.append_coincide (by decide +kernel) (coincide_quote "yate" "yate")).append_plain
        (by decide +kernel)).congr hhead
    exact (hyate.append hfields).append_plain (by decide +kernel)
  | window =>
    exact (Plain.append_coincide (by decide +kernel) hfields).append_plain (by decide +kernel)

end Script

/-! ## Artifacts -/

/-- In the artifact of a catalog, in both formats, every literal ends and has no raw control
character; read as JSON, the literals are the texts of the catalog in order; and without its
literals the artifact is the same for every catalog of the same shape. What stands outside
of literals must not have a quote itself: in compiled catalogs it is made of identifiers. -/
theorem Catalog.literals_artifact :
    (∀ calls, ∀ s ∈ (Workshop.compileAll calls {}).catalog.spliced,
      isIdentifier s = true ∧ '"' ∉ s.toList) ∧
    ∀ (c : Catalog) (format : Format), (∀ s ∈ c.spliced, '"' ∉ s.toList) →
      let r := Script.scan (c.artifact format)
      r.mode = .code ∧ (∀ body ∈ r.literals, ∀ x ∈ body, 0x20 ≤ x.toNat) ∧
      r.literals.map (fun body => Json.read? (String.ofList ('"' :: body ++ ['"']))) =
        (c.texts format).map (fun text => some (.str text)) ∧
      ∀ c' : Catalog, c'.blank = c.blank → (Script.scan (c'.artifact format)).code = r.code := by
  refine ⟨fun calls s hs => ?_, fun c format h => ?_⟩
  · have hid := Workshop.isIdentifier_of_spliced calls hs
    exact ⟨hid, fun hm => absurd (continuesIdentifier_of_mem hid hm) (by decide)⟩
  · intro r
    obtain ⟨code, hwrites, hblank⟩ := Script.coincide_artifact h format
    have hr : r = ⟨.code, code, (c.texts format).map quoted⟩ := hwrites [] []
    rw [hr]
    refine ⟨rfl, fun body hbody x hx => ?_, ?_, fun c' hc' => ?_⟩
    · obtain ⟨text, _, rfl⟩ := List.mem_map.mp hbody
      exact le_toNat_of_mem_quoted hx
    · have hquote : ∀ text, String.ofList ('"' :: quoted text ++ ['"']) = quote text := fun _ => rfl
      simp only [List.map_map, Function.comp_def, hquote, Json.read?_quote]
    · have h' : ∀ s ∈ c'.spliced, '"' ∉ s.toList := by
        rw [← spliced_blank, hc', spliced_blank]
        exact h
      obtain ⟨code', hwrites', hblank'⟩ := Script.coincide_artifact h' format
      have hscan' : Script.scan (c'.artifact format) = ⟨.code, code', _⟩ := hwrites' [] []
      rw [hscan']
      -- both are the code of the emptied catalog
      have hcode := hblank [] []
      rw [← hc', hblank' [] []] at hcode
      exact (congrArg Script.Scan.code hcode :)

/-- A name, a content and a guard with quotes and backslashes, beside harmless ones. -/
theorem Catalog.literals_artifact_quotes :
    let t : Template := {
      name := "x\"\n"
      seeds := [.element 0 "p" false, .text 1 "\"); f(\\"]
      wires := [.append .root 0, .append (.slot 0) 1]
      computations := [.unlessFalse 0 "\\\"" 0 (.setProperty 0 "title" [.var 0])]
      routes := [⟨"a", [(0, ["b"])], [0]⟩]
      varCount := 1
      groupCount := 0
      top := some 0 }
    let t' : Template := { t with name := "y", seeds := [.element 0 "b" false, .text 1 "z"] }
    let r := Script.scan (Catalog.artifact { templates := [t] } .exports)
    (∀ s ∈ Catalog.spliced { templates := [t] }, '"' ∉ s.toList) ∧ r.mode = .code ∧
      r.literals.map (fun body => Json.read? (String.ofList ('"' :: body ++ ['"']))) =
        ["yate", "x\"\n", "", "\\\"", "title", "a", "p", "\"); f(\\"].map
          (fun text => some (.str text)) ∧
      (Script.scan (Catalog.artifact { templates := [t'] } .exports)).code = r.code := by
  intro t t' r
  have hplain : ∀ s ∈ Catalog.spliced { templates := [t] }, '"' ∉ s.toList := by decide +kernel
  have hblank : Catalog.blank { templates := [t'] } = Catalog.blank { templates := [t] } := by
    decide +kernel
  have htexts : Catalog.texts { templates := [t] } .exports =
      ["yate", "x\"\n", "", "\\\"", "title", "a", "p", "\"); f(\\"] := by decide +kernel
  clear_value t t'
  obtain ⟨hmode, _, hread, hsame⟩ := literals_artifact.2 { templates := [t] } .exports hplain
  rw [htexts] at hread
  exact ⟨hplain, hmode, hread, hsame { templates := [t'] } hblank⟩

end Stencil
