import Mathlib.Algebra.GroupWithZero.Nat
import TreeMarkup.Proofs.Markup.Completion
import TreeMarkup.Proofs.Markup.Legible
import TreeMarkup.Proofs.Markup.Outcome
import TreeMarkup.Proofs.Text.OneLine

namespace TreeMarkup

section Text

def breaks (text : String) : Nat :=
  text.toList.count '\n'

def lineCount (text : String) : Nat :=
  (text.toList.splitOn '\n').length

lemma length_splitOn (c : Char) (cs : List Char) : (cs.splitOn c).length = cs.count c + 1 := by
  induction cs with
  | nil => simp
  | cons d cs ih =>
    rw [List.splitOn_cons_eq_if_modifyHead, List.count_cons]
    by_cases h : d = c
    · simp [h, ih]
    · simp [h, ih]

lemma lineCount_eq (text : String) : lineCount text = breaks text + 1 :=
  length_splitOn '\n' text.toList

@[simp] lemma breaks_append (s t : String) : breaks (s ++ t) = breaks s + breaks t := by
  simp [breaks]

lemma breaks_eq_zero {text : String} : breaks text = 0 ↔ OneLine text :=
  List.count_eq_zero

lemma lineCount_of_oneLine {text : String} (h : OneLine text) : lineCount text = 1 := by
  rw [lineCount_eq, breaks_eq_zero.mpr h]

lemma lineCount_append {s t : String} (h : OneLine t) : lineCount (s ++ t) = 1 + breaks s := by
  rw [lineCount_eq, breaks_append, breaks_eq_zero.mpr h]
  omega

def breaksIn (texts : List String) : Nat :=
  (texts.map breaks).sum

@[simp] lemma breaksIn_nil : breaksIn [] = 0 := rfl

@[simp] lemma breaksIn_cons (text : String) (texts : List String) :
    breaksIn (text :: texts) = breaks text + breaksIn texts := by
  simp [breaksIn]

@[simp] lemma breaksIn_append (xs ys : List String) :
    breaksIn (xs ++ ys) = breaksIn xs + breaksIn ys := by
  simp [breaksIn]

lemma breaksIn_eq_zero {texts : List String} : breaksIn texts = 0 ↔ ∀ text ∈ texts, OneLine text := by
  induction texts with
  | nil => simp
  | cons text rest ih => simp [breaks_eq_zero, ih]

end Text

namespace Markup

namespace Element

def tagHeight (attributes : List (String × Form Element)) (inner : Nat) : Nat :=
  if attributes.isEmpty then 1 else 1 + (inner + 1)

mutual

def height : Element → Nat
  | ⟨_, attributes, none⟩ => tagHeight attributes (attributesHeight attributes)
  | ⟨_, attributes, some children⟩ =>
    tagHeight attributes (attributesHeight attributes) + (childrenHeight children + 1)

def attributesHeight : List (String × Form Element) → Nat
  | [] => 0
  | (_, form) :: rest => formHeight form + attributesHeight rest

def formHeight : Form Element → Nat
  | .block inner => 2 + height inner
  | _ => 1

def childrenHeight : List Element → Nat
  | [] => 0
  | child :: rest => height child + childrenHeight rest

end

mutual

def keys : Element → List String
  | ⟨_, attributes, none⟩ => attributesKeys attributes
  | ⟨_, attributes, some children⟩ => attributesKeys attributes ++ childrenKeys children

def attributesKeys : List (String × Form Element) → List String
  | [] => []
  | (key, form) :: rest => key :: (formKeys form ++ attributesKeys rest)

def formKeys : Form Element → List String
  | .block inner => keys inner
  | _ => []

def childrenKeys : List Element → List String
  | [] => []
  | child :: rest => keys child ++ childrenKeys rest

end

mutual

def Trim : Element → Prop
  | ⟨name, attributes, none⟩ => OneLine name ∧ TrimAttributes attributes
  | ⟨name, attributes, some children⟩ =>
    OneLine name ∧ TrimAttributes attributes ∧ TrimChildren children

def TrimAttributes : List (String × Form Element) → Prop
  | [] => True
  | (_, form) :: rest => TrimForm form ∧ TrimAttributes rest

def TrimForm : Form Element → Prop
  | .bare => True
  | .text escaped => OneLine escaped
  | .literal text => OneLine text
  | .reference component => OneLine component
  | .block inner => Trim inner

def TrimChildren : List Element → Prop
  | [] => True
  | child :: rest => Trim child ∧ TrimChildren rest

end

end Element

lemma Element.trim_mk {name : String} {attributes : List (String × Form Element)}
    {children : Option (List Element)} (hn : OneLine name) (ha : TrimAttributes attributes)
    (hc : ∀ es ∈ children, TrimChildren es) : Trim ⟨name, attributes, children⟩ := by
  cases children with
  | none => exact ⟨hn, ha⟩
  | some es => exact ⟨hn, ha, hc es rfl⟩

section Lines

def written (lines : List Line) : Nat :=
  (lines.map fun line => lineCount line.2).sum

@[simp] lemma written_nil : written [] = 0 := rfl

@[simp] lemma written_cons (line : Line) (lines : List Line) :
    written (line :: lines) = lineCount line.2 + written lines := by
  simp [written]

@[simp] lemma written_append (xs ys : List Line) : written (xs ++ ys) = written xs + written ys := by
  simp [written]

variable {indent : String}

lemma breaks_repeated (h : OneLine indent) (n : Nat) : breaks (repeated indent n) = 0 := by
  induction n with
  | zero => rfl
  | succ n ih =>
    have hr : repeated indent (n + 1) = indent ++ repeated indent n := by
      simp [repeated, List.replicate_succ]
    rw [hr, breaks_append, breaks_eq_zero.mpr h, ih]

lemma lineCount_layout (h : OneLine indent) {lines : List Line} (hne : lines ≠ []) :
    lineCount (layout indent lines) = written lines := by
  induction lines with
  | nil => exact absurd rfl hne
  | cons line more ih =>
    have hl : lineCount (indented indent line) = lineCount line.2 := by
      rw [lineCount_eq, lineCount_eq, indented, breaks_append, breaks_repeated h, Nat.zero_add]
    cases more with
    | nil => rw [layout_singleton, hl, written_cons, written_nil, Nat.add_zero]
    | cons next more =>
      have hm := ih (List.cons_ne_nil next more)
      have hbreak : breaks "\n" = 1 := by decide
      rw [lineCount_eq] at hl hm
      rw [layout_cons indent line (List.cons_ne_nil next more), written_cons, lineCount_eq]
      simp only [breaks_append, hbreak]
      omega

end Lines

namespace Element

lemma written_tagLines {name ending : String} (hn : OneLine name) (he : OneLine ending)
    (depth inner : Nat) (attributes : List (String × Form Element)) :
    written (tagLines depth name (attributeLines inner attributes) ending) =
      tagHeight attributes (written (attributeLines inner attributes)) := by
  have hsign : OneLine "<" := by simp [OneLine]
  have hopen : OneLine ("<" ++ name) := OneLine.append.mpr ⟨hsign, hn⟩
  cases attributes with
  | nil =>
    have hline : OneLine ("<" ++ name ++ ending) := OneLine.append.mpr ⟨hopen, he⟩
    simp [tagLines, attributeLines, tagHeight, lineCount_of_oneLine hline]
  | cons a rest =>
    have hne : attributeLines inner (a :: rest) ≠ [] := by
      simp [attributeLines, formLines_ne_nil]
    simp [tagLines, hne, tagHeight, lineCount_of_oneLine hopen, lineCount_of_oneLine he]

lemma tagHeight_breaks (attributes : List (String × Form Element)) (inner : Nat) :
    tagHeight attributes (inner + breaksIn (attributesKeys attributes)) =
      tagHeight attributes inner + breaksIn (attributesKeys attributes) := by
  cases attributes with
  | nil => simp [tagHeight, attributesKeys]
  | cons a rest =>
    simp only [tagHeight, List.isEmpty_cons, Bool.false_eq_true, if_false]
    omega

lemma lineCount_braced {key text : String} (h : OneLine text) :
    lineCount (braced key text) = 1 + breaks key := by
  have ho : OneLine "=\x7b" := by simp [OneLine]
  have hc : OneLine "\x7d" := by simp [OneLine]
  rw [braced, String.append_assoc, String.append_assoc]
  exact lineCount_append (by simp [ho, hc, h])

mutual

lemma written_lines : ∀ (e : Element), e.Trim → ∀ depth,
    written (e.lines depth) = e.height + breaksIn e.keys
  | ⟨name, attributes, none⟩, ⟨hn, ha⟩, depth => by
    have h := written_attributeLines attributes ha (depth + 1)
    have he : OneLine "/>" := by simp [OneLine]
    rw [lines, written_tagLines hn he, h, tagHeight_breaks, height, keys]
  | ⟨name, attributes, some children⟩, ⟨hn, ha, hc⟩, depth => by
    have h := written_attributeLines attributes ha (depth + 1)
    have hs := written_childLines children hc (depth + 1)
    have he : OneLine ">" := by simp [OneLine]
    have hclose : OneLine ("</" ++ name ++ ">") := by
      have hsign : OneLine "</" := by simp [OneLine]
      simp [hsign, hn, he]
    simp only [lines, written_append, written_tagLines hn he, h, hs, tagHeight_breaks, written_cons,
      lineCount_of_oneLine hclose, written_nil, height, keys, breaksIn_append]
    omega

lemma written_attributeLines : ∀ (attributes : List (String × Form Element)),
    TrimAttributes attributes → ∀ depth, written (attributeLines depth attributes) =
      attributesHeight attributes + breaksIn (attributesKeys attributes)
  | [], _, depth => rfl
  | (key, form) :: rest, ⟨hf, hr⟩, depth => by
    have h := written_formLines form hf depth key
    have ht := written_attributeLines rest hr depth
    simp only [attributeLines, written_append, h, ht, attributesHeight, attributesKeys,
      breaksIn_cons, breaksIn_append]
    omega

lemma written_formLines : ∀ (form : Form Element), TrimForm form → ∀ (depth : Nat) (key : String),
    written (formLines depth key form) = formHeight form + (breaks key + breaksIn (formKeys form))
  | .bare, _, depth, key => by
    simp [formLines, lineCount_eq, formHeight, formKeys, Nat.add_comm]
  | .text escaped, h, depth, key => by
    have hline : OneLine ("=\"" ++ escaped ++ "\"") := by
      have ho : OneLine "=\"" := by simp [OneLine]
      have hc : OneLine "\"" := by simp [OneLine]
      exact OneLine.append.mpr ⟨OneLine.append.mpr ⟨ho, h⟩, hc⟩
    have hcount : lineCount (key ++ ("=\"" ++ escaped ++ "\"")) = 1 + breaks key :=
      lineCount_append hline
    rw [← String.append_assoc, ← String.append_assoc] at hcount
    simp [formLines, hcount, formHeight, formKeys]
  | .literal text, h, depth, key => by
    simp [formLines, lineCount_braced h, formHeight, formKeys]
  | .reference component, h, depth, key => by
    simp [formLines, lineCount_braced h, formHeight, formKeys]
  | .block inner, h, depth, key => by
    have hi := written_lines inner h (depth + 1)
    have ho : OneLine "=\x7b" := by simp [OneLine]
    have hc : OneLine "\x7d" := by simp [OneLine]
    simp only [formLines, written_cons, written_append, lineCount_append ho, hi,
      lineCount_of_oneLine hc, written_nil, formHeight, formKeys]
    omega

lemma written_childLines : ∀ (children : List Element), TrimChildren children → ∀ depth,
    written (childLines depth children) = childrenHeight children + breaksIn (childrenKeys children)
  | [], _, depth => rfl
  | child :: rest, ⟨hc, hr⟩, depth => by
    have h := written_lines child hc depth
    have ht := written_childLines rest hr depth
    simp only [childLines, written_append, h, ht, childrenHeight, childrenKeys, breaksIn_append]
    omega

end

end Element

section Shown

variable {target : Target}

mutual

lemma trim_of_shows (hreg : ∀ name ∈ NameMap.names target.registry, OneLine name) :
    ∀ {node : Node} {v : Option Element}, Shows target node v → ∀ e ∈ v, e.Trim
  | _, _, .nothing _, e, he => by cases he
  | _, _, .tag hr ha hc, _, rfl =>
    Element.trim_mk (hreg _ (mem_names_of_resolved hr)) (trim_of_showsAttributes hreg ha)
      (trim_of_showsChildren hreg hc)

lemma trim_of_showsAttributes (hreg : ∀ name ∈ NameMap.names target.registry, OneLine name) :
    ∀ {attributes : List Attribute} {forms : List (String × Form Element)},
      ShowsAttributes target attributes forms → Element.TrimAttributes forms
  | _, _, .nil => trivial
  | _, _, .shown hf hs => ⟨trim_of_showsForm hreg hf _ rfl, trim_of_showsAttributes hreg hs⟩
  | _, _, .dropped _ hs => trim_of_showsAttributes hreg hs

lemma trim_of_showsForm (hreg : ∀ name ∈ NameMap.names target.registry, OneLine name) :
    ∀ {name : String} {value : AttributeValue Node} {v : Option (Form Element)},
      ShowsForm target name value v → ∀ form ∈ v, Element.TrimForm form
  | _, _, _, .bare _, _, rfl => trivial
  | _, _, _, .boolean, _, rfl => by simp [Element.TrimForm, OneLine]
  | _, _, _, .number, _, rfl => OneLine.numberLiteral _
  | _, _, _, .null, _, rfl => by simp [Element.TrimForm, OneLine]
  | _, _, _, .object, _, rfl => OneLine.json _
  | _, _, _, .string, _, rfl => OneLine.escape _
  | _, _, _, .reference hc, _, rfl => hreg _ (mem_names_of_contains hc)
  | _, _, _, .node hn, _, rfl => trim_of_shows hreg hn _ rfl

lemma trim_of_showsChildren (hreg : ∀ name ∈ NameMap.names target.registry, OneLine name) :
    ∀ {nodes : Option (List Node)} {v : Option (List Element)},
      ShowsChildren target nodes v → ∀ es ∈ v, Element.TrimChildren es
  | _, _, .some hs, _, rfl => trim_of_showsNodes hreg hs

lemma trim_of_showsNodes (hreg : ∀ name ∈ NameMap.names target.registry, OneLine name) :
    ∀ {nodes : List Node} {es : List Element},
      ShowsNodes target nodes es → Element.TrimChildren es
  | _, _, .nil => trivial
  | _, _, .shown hn hs => ⟨trim_of_shows hreg hn _ rfl, trim_of_showsNodes hreg hs⟩
  | _, _, .hidden _ hs => trim_of_showsNodes hreg hs

end

end Shown

lemma lineCount_compile {target : Target} {node : Node} {compiled : Compiled}
    {name : String} {component : Component} (hr : resolved? target node = some (name, component))
    (hi : OneLine target.options.indent) (hreg : ∀ name ∈ NameMap.names target.registry, OneLine name)
    (hc : compile target node = some compiled) :
    ∃ e, (∀ v, Shows target node v ↔ v = some e) ∧
      lineCount compiled.markup = e.height + breaksIn e.keys := by
  rw [compile_eq] at hc
  obtain ⟨u, hu, rfl⟩ := Option.map_eq_some_iff.mp hc
  have hshows := shows_iff target _ node u hu
  rcases unfoldWithin_cases hu with ⟨hnone, _⟩ | ⟨_, _, parts, us, _, _, _, rfl⟩
  · exact absurd (hnone.symm.trans hr) (by simp)
  · rw [Unfolding.visible_tag] at hshows
    refine ⟨_, hshows, ?_⟩
    have htrim := trim_of_shows hreg ((hshows _).mpr rfl) _ rfl
    rw [Unfolding.markup, Unfolding.visible_tag, Option.map_some, Option.getD_some,
      lineCount_layout hi (Element.lines_ne_nil 0 _), Element.written_lines _ htrim]

/-- What the bound node shows fixes the number of lines, up to the line breaks in names of attributes:
no value adds a line. -/
theorem build_lineCount {members : Json.Members} {root : String} {flat : FlatRegistry}
    {registry : Registry} {aliases : Json} {ambient : Attributes} {options : Options}
    {built : Compilation} (hm : ¬Malformed registry aliases (.object members))
    (hn : NamesRoot members root) (hf : registry.flatten = .ok flat)
    (hr : NameMap.contains flat root = true) (hi : OneLine options.indent)
    (ha : OneLine options.rootAdapter) (hreg : ∀ name ∈ NameMap.names flat, OneLine name)
    (hb : build (.object members) registry aliases ambient options = some built) :
    ∃ target node e, BoundTo (.object members) registry aliases ambient options target node ∧
      (∀ v, Shows target node v ↔ v = some e) ∧
      lineCount built.markup = e.height + breaksIn e.keys ∧
      (lineCount built.markup = e.height ↔ ∀ key ∈ e.keys, OneLine key) := by
  obtain ⟨_, _, _, flatTree, renames, htree, _, _, hforms⟩ := not_malformed_iff.mp hm
  obtain rfl := Json.object.inj htree
  have hroot := componentOf_eq_some.mpr hn
  obtain ⟨component, hg⟩ := Option.isSome_iff_exists.mp hr
  obtain ⟨aliased, aliasLog, ht⟩ := aliasTree_ok hforms
  obtain ⟨log, hbind⟩ := bindRoot_of_registered ambient options.rootAdapter hg
  have hbound := build_of_aliasTree hroot hf hbind ht
  rw [hb] at hbound
  obtain ⟨compiled, hc, rfl⟩ := Option.map_eq_some_iff.mp hbound.symm
  have hregistered : ∀ name ∈ NameMap.names (NameMap.insert options.rootAdapter
      (.adapter root component ambient) flat), OneLine name := by
    intro name hm
    rcases NameMap.mem_names_insert hm with rfl | hm
    · exact ha
    · exact hreg name hm
  obtain ⟨e, hshows, hcount⟩ := lineCount_compile (resolved_adapter _ options _) hi hregistered hc
  refine ⟨_, _, e, ⟨members, root, flat, aliased, aliasLog, rfl, hroot, hf, ht, rfl, rfl⟩, ?_, hcount, ?_⟩
  · rw [hbind]
    exact hshows
  · rw [hcount, ← breaksIn_eq_zero]
    omega

section Banner

def bannerRegistry : Registry :=
  [("Banner", .component (.host "Banner" [("gap", .number (.whole 4))])),
    ("Star", .component (.host "Star" []))]

def bannerFlat : FlatRegistry :=
  [("Banner", .host "Banner" [("gap", .number (.whole 4))]), ("Star", .host "Star" [])]

def banner : Json.Members :=
  [("_", .string "Banner"), ("title", .string "a\nb"), ("on", .bool true), ("Lead", .string "Star"),
    ("Icon", .object [("_", .string "Star"), ("size", .null)]),
    ("$", .array #[.object [("_", .string "Star")], .object [("_", .string "None")]])]

def brokenBanner : Json.Members :=
  [("_", .string "Star"), ("a\nb", .number (.whole 1))]

def brokenElement : Element :=
  ⟨rootAdapterName, [("a\nb", .literal "1")], none⟩

lemma flatten_banner : bannerRegistry.flatten = .ok bannerFlat := by
  rfl

lemma oneLine_banner : OneLine Options.default.indent ∧ OneLine Options.default.rootAdapter ∧
    (∀ name ∈ NameMap.names bannerFlat, OneLine name) ∧
    ∀ entry ∈ bannerFlat, ∀ name ∈ Fields.names entry.2.defaults, OneLine name := by
  unfold OneLine
  decide +kernel

lemma wellFormed_banner : ¬Malformed bannerRegistry .null (.object banner) := by
  have hn : NamesRoot banner "Banner" := Or.inl rfl
  exact not_malformed_iff.mpr ⟨banner, "Banner", _, _, _, rfl, hn, flatten_banner, rfl⟩

lemma lineCount_banner :
    (build (.object banner) bannerRegistry .null [] Options.default).map
      (fun built => lineCount built.markup) = some 13 := by
  decide +kernel

lemma wellFormed_brokenBanner : ¬Malformed bannerRegistry .null (.object brokenBanner) := by
  have hn : NamesRoot brokenBanner "Star" := Or.inl rfl
  exact not_malformed_iff.mpr ⟨brokenBanner, "Star", _, _, _, rfl, hn, flatten_banner, rfl⟩

lemma lineCount_brokenBanner :
    (build (.object brokenBanner) bannerRegistry .null [] Options.default).map
      (fun built => lineCount built.markup) = some 4 := by
  decide +kernel

end Banner

theorem build_lineCount_banner : ¬Malformed bannerRegistry .null (.object banner) ∧
    NamesRoot banner "Banner" ∧ bannerRegistry.flatten = .ok bannerFlat ∧
    NameMap.contains bannerFlat "Banner" = true ∧ OneLine Options.default.indent ∧
    OneLine Options.default.rootAdapter ∧ (∀ name ∈ NameMap.names bannerFlat, OneLine name) ∧
    ∃ built, build (.object banner) bannerRegistry .null [] Options.default = some built ∧
      lineCount built.markup = 13 ∧ ∃ target node e,
        BoundTo (.object banner) bannerRegistry .null [] Options.default target node ∧
        Shows target node (some e) ∧ e.height + breaksIn e.keys = 13 := by
  obtain ⟨built, hb, hl⟩ := Option.map_eq_some_iff.mp lineCount_banner
  have hn : NamesRoot banner "Banner" := Or.inl rfl
  have hr : NameMap.contains bannerFlat "Banner" = true := by decide
  obtain ⟨hi, ha, hreg, _⟩ := oneLine_banner
  obtain ⟨target, node, e, hbound, hshows, hcount, _⟩ :=
    build_lineCount wellFormed_banner hn flatten_banner hr hi ha hreg hb
  exact ⟨wellFormed_banner, hn, flatten_banner, hr, hi, ha, hreg, built, hb, hl, target, node, e,
    hbound, (hshows _).mpr rfl, hcount.symm.trans hl⟩

theorem not_build_lineCount_broken : ¬∀ (members : Json.Members) (root : String) (flat : FlatRegistry)
    (registry : Registry) (aliases : Json) (ambient : Attributes) (options : Options)
    (built : Compilation) (target : Target) (node : Node) (e : Element),
    ¬Malformed registry aliases (.object members) → NamesRoot members root →
    registry.flatten = .ok flat → NameMap.contains flat root = true → OneLine options.indent →
    OneLine options.rootAdapter → (∀ name ∈ NameMap.names flat, OneLine name) →
    (∀ entry ∈ flat, ∀ name ∈ Fields.names entry.2.defaults, OneLine name) →
    build (.object members) registry aliases ambient options = some built →
    BoundTo (.object members) registry aliases ambient options target node →
    Shows target node (some e) → lineCount built.markup = e.height := by
  intro h
  obtain ⟨built, hb, hl⟩ := Option.map_eq_some_iff.mp lineCount_brokenBanner
  obtain ⟨hi, ha, hreg, hd⟩ := oneLine_banner
  have hbound : BoundTo (.object brokenBanner) bannerRegistry .null [] Options.default _ _ :=
    ⟨brokenBanner, "Star", bannerFlat, _, _, rfl, rfl, flatten_banner, rfl, rfl, rfl⟩
  have hshows : ShowsForm ⟨(bannerFlat.bindRoot "Star" [] rootAdapterName).registry, Options.default⟩
      "a\nb" (.number (.whole 1)) (some (.literal "1")) := .number
  have hcount := h brokenBanner "Star" bannerFlat bannerRegistry .null [] Options.default built _ _
    brokenElement wellFormed_brokenBanner (Or.inl rfl) flatten_banner (by decide) hi ha hreg hd hb hbound
    (.tag rfl (.shown hshows .nil) .none)
  exact absurd (hl.symm.trans hcount) (by decide)

end Markup
end TreeMarkup
