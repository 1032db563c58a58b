import TreeMarkup.Proofs.Markup.Diagnostics
import TreeMarkup.Proofs.Markup.Stability

namespace TreeMarkup.Markup

section Lines

def deeper (level : Nat) (line : Line) : Line :=
  (level + line.1, line.2)

lemma tagLines_add (level depth : Nat) (name : String) (attributes : List Line) (ending : String) :
    tagLines (level + depth) name (attributes.map (deeper level)) ending =
      (tagLines depth name attributes ending).map (deeper level) := by
  rw [tagLines, tagLines, List.isEmpty_map]
  split <;> simp [deeper]

namespace Element

mutual

lemma lines_add (level : Nat) : ∀ (e : Element) (depth : Nat),
    lines (level + depth) e = (lines depth e).map (deeper level)
  | ⟨name, attributes, none⟩, depth => by
    have ha := attributeLines_add level attributes (depth + 1)
    rw [lines, lines, Nat.add_assoc, ha, tagLines_add]
  | ⟨name, attributes, some children⟩, depth => by
    have ha := attributeLines_add level attributes (depth + 1)
    have hc := childLines_add level children (depth + 1)
    rw [lines, lines, Nat.add_assoc, ha, hc, tagLines_add, List.map_append, List.map_append]
    rfl

lemma attributeLines_add (level : Nat) : ∀ (attributes : List (String × Form Element)) (depth : Nat),
    attributeLines (level + depth) attributes = (attributeLines depth attributes).map (deeper level)
  | [], depth => rfl
  | (name, form) :: rest, depth => by
    have hf := formLines_add level form depth name
    have hr := attributeLines_add level rest depth
    rw [attributeLines, attributeLines, hf, hr, List.map_append]

lemma formLines_add (level : Nat) : ∀ (form : Form Element) (depth : Nat) (name : String),
    formLines (level + depth) name form = (formLines depth name form).map (deeper level)
  | .block inner, depth, name => by
    have hi := lines_add level inner (depth + 1)
    rw [formLines, formLines, Nat.add_assoc, hi, List.map_cons, List.map_append]
    rfl
  | .bare, _, _ | .text _, _, _ | .literal _, _, _ | .reference _, _, _ => rfl

lemma childLines_add (level : Nat) : ∀ (children : List Element) (depth : Nat),
    childLines (level + depth) children = (childLines depth children).map (deeper level)
  | [], depth => rfl
  | child :: rest, depth => by
    have hc := lines_add level child depth
    have hr := childLines_add level rest depth
    rw [childLines, childLines, hc, hr, List.map_append]

end

lemma layout_lines (indent : String) (level : Nat) (e : Element) :
    layout indent (lines level e) =
      "\n".intercalate ((lines 0 e).map fun line => repeated indent (level + line.1) ++ line.2) := by
  have h := lines_add level e 0
  rw [Nat.add_zero] at h
  rw [h, layout, List.map_map]
  rfl

end Element

end Lines

section Options

variable {registry : FlatRegistry} {node : Node}

lemma unfoldWithin_options (options other : Options) (depth : Nat) (node : Node) :
    unfoldWithin ⟨registry, other⟩ depth node = unfoldWithin ⟨registry, options⟩ depth node := by
  have halike : ∀ node, True → Alike ⟨registry, options⟩ ⟨registry, other⟩ node :=
    fun _ _ => ⟨rfl, fun _ _ _ _ _ _ => rfl⟩
  exact unfoldWithin_congr (fun _ _ _ _ => trivial) halike trivial depth

lemma unfoldWithin_of_run {options : Options} {level : Nat} {path : Path} {c : Context}
    {result : String × Context}
    (h : (compileNode ⟨registry, options⟩ node level path).run c = some result) : ∃ u,
    unfoldWithin ⟨registry, options⟩ (depthFor ⟨registry, options⟩ node) node = some u := by
  rw [compileNode, compileWithin_run] at h
  obtain ⟨u, hu, _⟩ := Option.map_eq_some_iff.mp h
  exact ⟨u, hu⟩

lemma compileNode_run {options : Options} {u : Unfolding}
    (h : unfoldWithin ⟨registry, options⟩ (depthFor ⟨registry, options⟩ node) node = some u)
    (other : Options) (level : Nat) (path : Path) (c : Context) :
    (compileNode ⟨registry, other⟩ node level path).run c =
      some (u.markup other.indent level, c.extend (u.log level path)) := by
  have hu : unfoldWithin ⟨registry, other⟩ (depthFor ⟨registry, other⟩ node) node = some u :=
    (unfoldWithin_options options other _ node).trans h
  rw [compileNode, compileWithin_run, hu, Option.map_some]

end Options

/-- A node that is registered has lines, each at a depth, and diagnostics. Every indent and level give
these lines, indented by the level and the depth together, and these diagnostics. -/
theorem compileNode_layout {registry : FlatRegistry} {node : Node} {path : Path} {name : String}
    (hn : node.component = some name) (hr : NameMap.contains registry name = true)
    {options : Options} {level : Nat} {c : Context} {result : String × Context}
    (hc : (compileNode ⟨registry, options⟩ node level path).run c = some result) :
    ∃ (lines : List Line) (diagnostics : List Diagnostic),
      (∃ text more, lines = (0, text) :: more) ∧
      ∀ (options : Options) (level : Nat) (c : Context), ∃ context,
        (compileNode ⟨registry, options⟩ node level path).run c =
          some ("\n".intercalate (lines.map fun line =>
            repeated options.indent (level + line.1) ++ line.2), context) ∧
        context.diagnostics.toList = c.diagnostics.toList ++ diagnostics := by
  obtain ⟨component, hg⟩ := Option.isSome_iff_exists.mp hr
  obtain ⟨u, hu⟩ := unfoldWithin_of_run hc
  rcases unfoldWithin_cases hu with ⟨hnone, _⟩ | ⟨tag, _, parts, us, _, _, _, rfl⟩
  · simp [resolved?, hn, hg] at hnone
  · obtain ⟨ending, more, hl⟩ := Element.lines_eq_cons 0
      ⟨tag, Unfolding.visibleAttributes parts, us.map Unfolding.visibleChildren⟩
    refine ⟨_, (Unfolding.tag tag parts node.childrenKey us).trace.filterMap (Site.diagnosticAt path),
      ⟨_, more, hl⟩, ?_⟩
    intro options' level' c'
    have hlines := Element.layout_lines options'.indent level'
      ⟨tag, Unfolding.visibleAttributes parts, us.map Unfolding.visibleChildren⟩
    have hrun := compileNode_run hu options' level' path c'
    rw [Unfolding.markup, Unfolding.visible_tag, Option.map_some, Option.getD_some, hlines] at hrun
    refine ⟨_, hrun, ?_⟩
    simp [Context.extend, diagnostics_log]

def panelLines : List Line :=
  [(0, "<Box"), (1, "title=\"a\\n\\\"b\\\"\""), (1, "on"), (1, "Lead=\x7bStar\x7d"),
    (1, "Icon=\x7b"), (2, "<Star/>"), (1, "\x7d"), (1, "gap=\x7b4\x7d"), (0, ">"), (1, "<Star/>"),
    (1, "<Box"), (2, "gap=\x7b4\x7d"), (1, ">"), (1, "</Box>"), (0, "</Box>")]

lemma lines_panel : (unfold panelTarget (Node.ofJson panel)).map
    (fun u => u.visible.map (Element.lines 0)) = some (some panelLines) := by
  decide +kernel

lemma compileNode_panel (options : Options) (level : Nat) (c : Context) : ∃ context,
    (compileNode ⟨panelRegistry, options⟩ (Node.ofJson panel) level []).run c =
      some ("\n".intercalate (panelLines.map fun line =>
        repeated options.indent (level + line.1) ++ line.2), context) := by
  obtain ⟨u, hu, hv⟩ := Option.map_eq_some_iff.mp lines_panel
  obtain ⟨e, he, hl⟩ := Option.map_eq_some_iff.mp hv
  have hrun := compileNode_run hu options level [] c
  rw [Unfolding.markup, he, Option.map_some, Option.getD_some, Element.layout_lines, hl] at hrun
  exact ⟨_, hrun⟩

theorem compileNode_layout_panel : (Node.ofJson panel).component = some "Box" ∧
    NameMap.contains panelRegistry "Box" = true ∧
    ∃ result, (compileNode panelTarget (Node.ofJson panel) 0 []).run Context.empty = some result ∧
    ∃ (lines : List Line) (diagnostics : List Diagnostic),
      (∃ text more, lines = (0, text) :: more) ∧
      (∀ (options : Options) (level : Nat) (c : Context), ∃ context,
        (compileNode ⟨panelRegistry, options⟩ (Node.ofJson panel) level []).run c =
          some ("\n".intercalate (lines.map fun line =>
            repeated options.indent (level + line.1) ++ line.2), context) ∧
        context.diagnostics.toList = c.diagnostics.toList ++ diagnostics) ∧
      (∀ indent level,
        "\n".intercalate (lines.map fun line => repeated indent (level + line.1) ++ line.2) =
          "\n".intercalate (panelLines.map fun line => repeated indent (level + line.1) ++ line.2)) ∧
      diagnostics = panelDiagnostics := by
  obtain ⟨context, hc⟩ := compileNode_panel panelTarget.options 0 Context.empty
  have hn : (Node.ofJson panel).component = some "Box" := rfl
  have hr : NameMap.contains panelRegistry "Box" = true := by decide
  obtain ⟨lines, diagnostics, hfirst, hall⟩ := compileNode_layout hn hr hc
  refine ⟨hn, hr, _, hc, lines, diagnostics, hfirst, hall, ?_, ?_⟩
  · intro indent level
    obtain ⟨_, hrun, _⟩ := hall ⟨indent, rootAdapterName⟩ level Context.empty
    obtain ⟨_, hpanel⟩ := compileNode_panel ⟨indent, rootAdapterName⟩ level Context.empty
    exact (Prod.mk.inj (Option.some.inj (hrun.symm.trans hpanel))).1
  · obtain ⟨after, hrun, hd⟩ := hall panelTarget.options 0 Context.empty
    have hcompiled : (compile ⟨panelRegistry, panelTarget.options⟩ (Node.ofJson panel)).map
        (·.diagnostics) = some panelDiagnostics := diagnostics_panel
    rw [compile, hrun] at hcompiled
    exact hd.symm.trans (Option.some.inj hcompiled)

end TreeMarkup.Markup
