import TreeMarkup.Proofs.Markup.Described
import TreeMarkup.Proofs.Markup.Reading
import TreeMarkup.Proofs.Markup.Visible

namespace TreeMarkup.Markup

/-- References stand under names of components, and literals under other names. -/
def Suits (key : String) : AttributeValue Node → Prop
  | .reference _ => Node.isComponentName key = true
  | .number _ | .null | .boolean false | .object _ => Node.isComponentName key = false
  | _ => True

def InPlay (target : Target) (node : Node) (a : Attribute) : Prop :=
  ∃ route path n name component, Reached target node route path n ∧
    resolved? target n = some (name, component) ∧ a ∈ n.mergedAttributes component.defaults

def Suited (target : Target) (node : Node) : Prop :=
  ∀ a, InPlay target node a → Suits a.1 a.2

structure Legible (target : Target) (node : Node) : Prop where
  indent : ∀ c ∈ target.options.indent.toList, isBlank c = true
  components : ∀ name ∈ NameMap.names target.registry, IsName name
  attributes : ∀ a, InPlay target node a → IsName a.1

section Play

variable {target : Target} {node sub : Node}

lemma InPlay.inside (h : Nests target node sub) {a : Attribute} (ha : InPlay target sub a) :
    InPlay target node a := by
  obtain ⟨turn, steps, hn⟩ := h
  obtain ⟨route, path, n, name, component, hr, hc, hm⟩ := ha
  exact ⟨_, _, n, name, component, .inside hn hr, hc, hm⟩

lemma InPlay.self {name : String} {component : Component}
    (h : resolved? target node = some (name, component)) {a : Attribute}
    (ha : a ∈ node.mergedAttributes component.defaults) : InPlay target node a :=
  ⟨[], [], node, name, component, .root node, h, ha⟩

lemma Legible.inside (hl : Legible target node) (h : Nests target node sub) :
    Legible target sub :=
  ⟨hl.indent, hl.components, fun a ha => hl.attributes a (ha.inside h)⟩

lemma Suited.inside (hs : Suited target node) (h : Nests target node sub) : Suited target sub :=
  fun a ha => hs a (ha.inside h)

lemma mem_names_of_contains {registry : FlatRegistry} {name : String}
    (h : NameMap.contains registry name = true) : name ∈ NameMap.names registry := by
  obtain ⟨component, hg⟩ := Option.isSome_iff_exists.mp h
  exact List.mem_map_of_mem (NameMap.mem_of_get? hg)

lemma mem_names_of_resolved {name : String} {component : Component}
    (h : resolved? target node = some (name, component)) :
    name ∈ NameMap.names target.registry :=
  List.mem_map_of_mem (mem_registry h)

end Play

section Clear

variable {target : Target} {expand : Node → Option Unfolding}
  (hreg : ∀ name ∈ NameMap.names target.registry, IsName name)

include hreg

lemma clear_visiblePart {key : String} {value : AttributeValue Node} {part : Part Unfolding}
    (hs : Suits key value) (hp : partOf target expand value = some part)
    (hsub : ∀ sub, value = .node sub → ∀ u, expand sub = some u → ∀ e, u.visible = some e → e.Clear)
    {form : Form Element} (hf : Unfolding.visiblePart key part = some form) :
    Element.ClearForm key form := by
  cases value with
  | node sub =>
    obtain ⟨u, hu, rfl⟩ := Option.map_eq_some_iff.mp hp
    obtain ⟨e, he, rfl⟩ := Option.map_eq_some_iff.mp hf
    exact hsub sub rfl u hu e he
  | reference component =>
    cases hc : NameMap.contains target.registry component with
    | false =>
      simp only [partOf, hc, Bool.false_eq_true, if_false, Option.some.injEq] at hp
      subst hp
      exact absurd hf (by simp [Unfolding.visiblePart])
    | true =>
      simp only [partOf, hc, if_true, Option.some.injEq] at hp
      subst hp
      obtain rfl := Option.some.inj hf
      exact ⟨hreg _ (mem_names_of_contains hc), hs⟩
  | boolean b =>
    cases b with
    | false =>
      obtain rfl := Option.some.inj hp
      obtain rfl := Option.some.inj hf
      exact ⟨by simp [OneLine], hs⟩
    | true =>
      obtain rfl := Option.some.inj hp
      rw [Unfolding.visiblePart] at hf
      split at hf
      · exact absurd hf (by simp)
      · obtain rfl := Option.some.inj hf
        trivial
  | string text =>
    obtain rfl := Option.some.inj hp
    obtain rfl := Option.some.inj hf
    exact OneLine.escape text
  | number n =>
    obtain rfl := Option.some.inj hp
    obtain rfl := Option.some.inj hf
    exact ⟨OneLine.numberLiteral n, hs⟩
  | null =>
    obtain rfl := Option.some.inj hp
    obtain rfl := Option.some.inj hf
    exact ⟨by simp [OneLine], hs⟩
  | object members =>
    obtain rfl := Option.some.inj hp
    obtain rfl := Option.some.inj hf
    exact ⟨OneLine.json _, hs⟩
  | unevaluable =>
    obtain rfl := Option.some.inj hp
    exact absurd hf (by simp [Unfolding.visiblePart])
  | unsupported =>
    obtain rfl := Option.some.inj hp
    exact absurd hf (by simp [Unfolding.visiblePart])

lemma clear_visibleAttributes {attributes : List Attribute}
    {parts : List (String × Part Unfolding)}
    (hp : unfoldAttributes target expand attributes = some parts)
    (hn : ∀ a ∈ attributes, IsName a.1 ∧ Suits a.1 a.2)
    (hsub : ∀ a sub, (a, .node sub) ∈ attributes →
      ∀ u, expand sub = some u → ∀ e, u.visible = some e → e.Clear) :
    Element.ClearAttributes (Unfolding.visibleAttributes parts) := by
  induction attributes generalizing parts with
  | nil =>
    obtain rfl := Option.some.inj hp
    trivial
  | cons a rest ih =>
    obtain ⟨key, value⟩ := a
    obtain ⟨part, more, hv, hm, rfl⟩ := unfoldAttributes_cons hp
    obtain ⟨hk, hs⟩ := hn (key, value) List.mem_cons_self
    have hrest := ih hm (fun a ha => hn a (List.mem_cons_of_mem _ ha))
      (fun a sub ha => hsub a sub (List.mem_cons_of_mem _ ha))
    rw [Unfolding.visibleAttributes]
    cases hf : Unfolding.visiblePart key part with
    | none => exact hrest
    | some form =>
      have hclear := clear_visiblePart hreg hs hv
        (fun sub he => hsub key sub (he ▸ List.mem_cons_self)) hf
      exact ⟨⟨hk, hclear⟩, hrest⟩

omit hreg in
lemma clear_visibleChildren {nodes : List Node} {us : List Unfolding}
    (hu : unfoldNodes expand nodes = some us)
    (hsub : ∀ sub ∈ nodes, ∀ u, expand sub = some u → ∀ e, u.visible = some e → e.Clear) :
    Element.ClearChildren (Unfolding.visibleChildren us) := by
  induction nodes generalizing us with
  | nil =>
    obtain rfl := Option.some.inj hu
    trivial
  | cons node rest ih =>
    obtain ⟨u, more, hn, hm, rfl⟩ := unfoldNodes_cons hu
    have hrest := ih hm fun sub hs => hsub sub (List.mem_cons_of_mem _ hs)
    rw [Unfolding.visibleChildren]
    cases hv : u.visible with
    | none => exact hrest
    | some e => exact ⟨hsub node List.mem_cons_self u hn e hv, hrest⟩

end Clear

lemma clear_of_legible {target : Target} {depth : Nat} {node : Node} {u : Unfolding}
    (hl : Legible target node) (hs : Suited target node)
    (hu : unfoldWithin target depth node = some u) {e : Element} (he : u.visible = some e) :
    e.Clear := by
  induction depth generalizing node u e with
  | zero => exact absurd hu (by simp [unfoldWithin])
  | succ depth ih =>
    rcases unfoldWithin_cases hu with
      ⟨hr, rfl⟩ | ⟨name, component, parts, us, hr, hp, hc, rfl⟩
    · exact absurd he (by simp [Unfolding.visible])
    · have hn : IsName name := hl.components name (mem_names_of_resolved hr)
      have ha : Element.ClearAttributes (Unfolding.visibleAttributes parts) := by
        apply clear_visibleAttributes hl.components hp
        · intro a ha
          exact ⟨hl.attributes a (.self hr ha), hs a (.self hr ha)⟩
        · intro a sub ha v hv f hf
          have hn := (nests_iff hr sub).mpr (Or.inl ⟨a, ha⟩)
          exact ih (hl.inside hn) (hs.inside hn) hv hf
      rw [Unfolding.visible_tag] at he
      obtain rfl := Option.some.inj he
      cases us with
      | none => exact ⟨hn, ha⟩
      | some us =>
        obtain ⟨nodes, hk, hv⟩ := children_of_unfolded hc
        refine ⟨hn, ha, clear_visibleChildren hv fun sub hm v hv f hf => ?_⟩
        have hn := (nests_iff hr sub).mpr (Or.inr ⟨nodes, hk, hm⟩)
        exact ih (hl.inside hn) (hs.inside hn) hv hf

lemma read_markup {target : Target} {depth : Nat} {node : Node} {u : Unfolding}
    (hl : Legible target node) (hs : Suited target node)
    (hu : unfoldWithin target depth node = some u) :
    read (u.markup target.options.indent 0) = some u.visible := by
  cases hv : u.visible with
  | none => simp [Unfolding.markup, hv, read_empty]
  | some e =>
    simp only [Unfolding.markup, hv, Option.map_some, Option.getD_some]
    exact read_layout hl.indent (clear_of_legible hl hs hu hv)

lemma suits_classify (key : String) (value : Json) : Suits key (Node.classify key value) := by
  cases hk : Node.isComponentName key with
  | false =>
    simp only [Node.classify, hk, Bool.false_eq_true, if_false]
    cases value with
    | bool b => cases b <;> simp [Node.plainValue, Suits, hk]
    | _ => simp [Node.plainValue, Suits, hk]
  | true =>
    simp only [Node.classify, hk, if_true]
    cases value <;> simp [Node.componentValue, Suits, hk]

lemma Described.suited {target : Target} {node : Node} (h : Described node) : Suited target node := by
  rintro a ⟨route, path, n, name, component, hr, _, ha⟩
  obtain ⟨value, hv⟩ := (h.reached hr).attributes ha
  rw [hv]
  exact suits_classify a.1 value

def attributeNames (target : Target) (node : Node) : List String :=
  ((places target node).flatMap fun n => n.attributes.map Prod.fst) ++
    target.registry.flatMap fun entry => Fields.names entry.2.defaults

lemma InPlay.mem_attributeNames {target : Target} {node : Node} {a : Attribute}
    (h : InPlay target node a) : a.1 ∈ attributeNames target node := by
  obtain ⟨route, path, n, name, component, hr, hc, ha⟩ := h
  have hn := mem_places_of_reached hr self_mem_places
  rcases mem_mergedAttributes ha with ha | ha
  · exact List.mem_append_left _ (List.mem_flatMap.mpr ⟨n, hn, List.mem_map_of_mem ha⟩)
  · obtain ⟨d, hd, rfl⟩ := List.mem_map.mp ha
    have hm : (name, component) ∈ target.registry := mem_registry hc
    exact List.mem_append_right _ (List.mem_flatMap.mpr ⟨_, hm, List.mem_map_of_mem hd⟩)

lemma legible_of_names {target : Target} {node : Node}
    (hi : target.options.indent.toList.all isBlank = true)
    (hc : (NameMap.names target.registry).all isName = true)
    (ha : (attributeNames target node).all isName = true) : Legible target node := by
  rw [List.all_eq_true] at hi hc ha
  refine ⟨hi, fun name hn => isName_eq_true.mp (hc name hn), fun a hp => ?_⟩
  exact isName_eq_true.mp (ha _ hp.mem_attributeNames)

lemma shows_unique {target : Target} {node : Node} {compiled : Compiled}
    (hc : compile target node = some compiled) {v w : Option Element} (hv : Shows target node v)
    (hw : Shows target node w) : v = w := by
  rw [compile_eq] at hc
  obtain ⟨u, hu, _⟩ := Option.map_eq_some_iff.mp hc
  have hshown := shows_iff target _ node u hu
  exact ((hshown v).mp hv).trans ((hshown w).mp hw).symm

lemma read_compiled {target : Target} {node : Node} {compiled : Compiled} (hd : Described node)
    (hl : Legible target node) (hc : compile target node = some compiled) :
    ∃ v, (∀ w, Shows target node w ↔ w = v) ∧ read compiled.markup = some v := by
  rw [compile_eq] at hc
  obtain ⟨u, hu, rfl⟩ := Option.map_eq_some_iff.mp hc
  exact ⟨u.visible, shows_iff target _ node u hu, read_markup hl hd.suited hu⟩

/-- Of a node that JSON describes, reading gives back what it shows, so that no two that show different
trees have one markup. -/
theorem markup_determines_shown {target : Target} {node : Node} {compiled : Compiled}
    (hd : Described node) (hl : Legible target node) (hc : compile target node = some compiled) :
    (∃ v, (∀ w, Shows target node w ↔ w = v) ∧ read compiled.markup = some v) ∧
    ∀ other otherNode otherCompiled, Described otherNode → Legible other otherNode →
      compile other otherNode = some otherCompiled → ∀ v w, Shows target node v →
      Shows other otherNode w → v ≠ w → compiled.markup ≠ otherCompiled.markup := by
  obtain ⟨v, hv, hread⟩ := read_compiled hd hl hc
  refine ⟨⟨v, hv, hread⟩, ?_⟩
  intro other otherNode otherCompiled hdo hlo hco v' w' hv' hw' hne hmarkup
  obtain ⟨w, hw, hreadOther⟩ := read_compiled hdo hlo hco
  rw [hmarkup, hreadOther] at hread
  rw [(hv v').mp hv', (hw w').mp hw'] at hne
  exact hne (Option.some.inj hread).symm

section Panel

def panelRegistry : FlatRegistry :=
  [("Box", .host "Box" [("Icon", .object [("_", .string "Star")]), ("gap", .number (.whole 4))]),
    ("Star", .host "Star" [])]

def panelTarget : Target := ⟨panelRegistry, ⟨"\t ", rootAdapterName⟩⟩

def panel : Json :=
  .object [("_", .string "Box"), ("title", .string "a\n\"b\""), ("on", .bool true),
    ("Lead", .string "Star"), ("Bad", .null),
    ("$", .array #[.object [("_", .string "Star")], .object [("_", .string "None")],
      .object [("_", .string "Box"), ("Icon", .string "None"), ("$", .array #[.null])]])]

def panelMarkup : String :=
  "\n".intercalate ["<Box", "\t title=\"a\\n\\\"b\\\"\"", "\t on", "\t Lead=\x7bStar\x7d",
    "\t Icon=\x7b", "\t \t <Star/>", "\t \x7d", "\t gap=\x7b4\x7d", ">", "\t <Star/>", "\t <Box",
    "\t \t gap=\x7b4\x7d", "\t >", "\t </Box>", "</Box>"]

lemma markup_panel :
    (compile panelTarget (Node.ofJson panel)).map (·.markup) = some panelMarkup := by
  decide +kernel

lemma legible_panel : Legible panelTarget (Node.ofJson panel) := by
  apply legible_of_names
  · decide +kernel
  · decide +kernel
  · decide +kernel

end Panel

theorem markup_determines_shown_panel : ∃ compiled,
    compile panelTarget (Node.ofJson panel) = some compiled ∧ compiled.markup = panelMarkup ∧
    Described (Node.ofJson panel) ∧ Legible panelTarget (Node.ofJson panel) ∧
    ∃ v, (∀ w, Shows panelTarget (Node.ofJson panel) w ↔ w = v) ∧ read panelMarkup = some v := by
  obtain ⟨compiled, hc, hm⟩ := Option.map_eq_some_iff.mp markup_panel
  have hd := described_ofJson panel
  have hread := (markup_determines_shown hd legible_panel hc).1
  rw [hm] at hread
  exact ⟨compiled, hc, hm, hd, legible_panel, hread⟩

section Icon

def iconTarget : Target :=
  ⟨[("Box", .host "Box" []), ("null", .host "null" [])], Options.default⟩

/-- With a reference, it is a node that no JSON describes. -/
def iconBox (icon : AttributeValue Node) : Node :=
  { Node.empty with component := some "Box", attributes := [("icon", icon)] }

def iconElement (icon : Form Element) : Element :=
  ⟨"Box", [("icon", icon)], none⟩

def iconMarkup : String :=
  "<Box\n  icon=\x7bnull\x7d\n/>"

lemma markup_icon :
    (compile iconTarget (iconBox (.reference "null"))).map (·.markup) = some iconMarkup ∧
      (compile iconTarget (iconBox .null)).map (·.markup) = some iconMarkup := by
  decide +kernel

lemma legible_icon : Legible iconTarget (iconBox (.reference "null")) ∧
    Legible iconTarget (iconBox .null) := by
  constructor <;> apply legible_of_names <;> decide +kernel

lemma shows_icon {icon : AttributeValue Node} {form : Form Element}
    (h : ShowsForm iconTarget "icon" icon (some form)) :
    Shows iconTarget (iconBox icon) (some (iconElement form)) :=
  .tag rfl (.shown h .nil) .none

end Icon

/-- A reference to a component of that name and the literal are written the same, so that nothing that reads
markup tells them apart. -/
theorem not_markup_determines_shown_icon :
    (∃ compiled other v w,
      compile iconTarget (iconBox (.reference "null")) = some compiled ∧
      compile iconTarget (iconBox .null) = some other ∧
      Legible iconTarget (iconBox (.reference "null")) ∧ Legible iconTarget (iconBox .null) ∧
      Shows iconTarget (iconBox (.reference "null")) v ∧ Shows iconTarget (iconBox .null) w ∧
      v ≠ w ∧ compiled.markup = other.markup) ∧
    ¬∃ reader : String → Option Element, ∀ target node compiled, Legible target node →
      compile target node = some compiled → Shows target node (reader compiled.markup) := by
  obtain ⟨compiled, hc, hm⟩ := Option.map_eq_some_iff.mp markup_icon.1
  obtain ⟨other, ho, hmo⟩ := Option.map_eq_some_iff.mp markup_icon.2
  obtain ⟨hl, hlo⟩ := legible_icon
  have hs := shows_icon (@ShowsForm.reference iconTarget "icon" "null" rfl)
  have hso := shows_icon (@ShowsForm.null iconTarget "icon")
  have hne : some (iconElement (.reference "null")) ≠ some (iconElement (.literal "null")) := by
    simp [iconElement]
  refine ⟨⟨compiled, other, _, _, hc, ho, hl, hlo, hs, hso, hne, hm.trans hmo.symm⟩, ?_⟩
  rintro ⟨reader, hreader⟩
  have hread := shows_unique hc (hreader _ _ _ hl hc) hs
  have hreadOther := shows_unique ho (hreader _ _ _ hlo ho) hso
  rw [hm] at hread
  rw [hmo] at hreadOther
  exact hne (hread.symm.trans hreadOther)

end TreeMarkup.Markup
