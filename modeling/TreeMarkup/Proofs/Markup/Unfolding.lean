import TreeMarkup.Markup.Compiler
import TreeMarkup.Proofs.Markup.Element

/-! A node unfolds to a tree in which names are looked up and defaults are put in. Markup and log are
read off this tree: `compileWithin_run`. -/

namespace TreeMarkup.Markup

inductive Part (υ : Type) where
  | bare
  | text (escaped : String)
  | literal (text : String)
  | reference (component : String)
  | block (inner : υ)
  | unevaluable
  | dropped

inductive Unfolding where
  | missing (component : Option String)
  | tag (name : String) (attributes : List (String × Part Unfolding)) (childrenKey : String)
      (children : Option (List Unfolding))

def partOf (target : Target) (expand : Node → Option Unfolding) :
    AttributeValue Node → Option (Part Unfolding)
  | .reference component =>
    some (if NameMap.contains target.registry component then .reference component else .unevaluable)
  | .unevaluable => some .unevaluable
  | .node node => (expand node).map .block
  | .boolean true => some .bare
  | .boolean false => some (.literal "false")
  | .number n => some (.literal (numberLiteral n))
  | .null => some (.literal "null")
  | .object members => some (.literal (Json.object members).text)
  | .string text => some (.text (Text.Quoted.escape text))
  | .unsupported => some .dropped

def unfoldAttributes (target : Target) (expand : Node → Option Unfolding) :
    List Attribute → Option (List (String × Part Unfolding))
  | [] => some []
  | (name, value) :: rest =>
    (partOf target expand value).bind fun part =>
      (unfoldAttributes target expand rest).map ((name, part) :: ·)

def unfoldNodes (expand : Node → Option Unfolding) : List Node → Option (List Unfolding)
  | [] => some []
  | node :: rest => (expand node).bind fun u => (unfoldNodes expand rest).map (u :: ·)

def unfoldChildren (expand : Node → Option Unfolding) :
    Option (List Node) → Option (Option (List Unfolding))
  | none => some none
  | some nodes => (unfoldNodes expand nodes).map some

def unfoldWithin (target : Target) : Nat → Node → Option Unfolding
  | 0, _ => none
  | depth + 1, node =>
    match resolved? target node with
    | none => some (.missing node.component)
    | some (name, component) =>
      (unfoldAttributes target (unfoldWithin target depth)
          (node.mergedAttributes component.defaults)).bind fun attributes =>
        (unfoldChildren (unfoldWithin target depth) node.childNodes).map fun children =>
          .tag name attributes node.childrenKey children

lemma resolved_unique {target : Target} {node : Node} {name other : String}
    {component another : Component} (h : resolved? target node = some (name, component))
    (ho : resolved? target node = some (other, another)) : name = other ∧ component = another :=
  Prod.mk.inj (Option.some.inj (h.symm.trans ho))

lemma resolved_eq_some {target : Target} {node : Node} {name : String} {component : Component} :
    resolved? target node = some (name, component) ↔
      node.component = some name ∧ NameMap.get? target.registry name = some component := by
  cases hn : node.component with
  | none => simp [resolved?, hn]
  | some found =>
    simp only [resolved?, hn, Option.bind_some, Option.map_eq_some_iff, Prod.mk.injEq,
      Option.some.injEq]
    constructor
    · rintro ⟨_, hg, rfl, rfl⟩
      exact ⟨rfl, hg⟩
    · rintro ⟨rfl, hg⟩
      exact ⟨component, hg, rfl, rfl⟩

section Inversion

variable {target : Target} {expand : Node → Option Unfolding}

lemma unfoldAttributes_cons {name : String} {value : AttributeValue Node} {rest : List Attribute}
    {parts : List (String × Part Unfolding)}
    (h : unfoldAttributes target expand ((name, value) :: rest) = some parts) :
    ∃ part more, partOf target expand value = some part ∧
      unfoldAttributes target expand rest = some more ∧ parts = (name, part) :: more := by
  obtain ⟨part, hv, hr⟩ := Option.bind_eq_some_iff.mp h
  obtain ⟨more, hm, rfl⟩ := Option.map_eq_some_iff.mp hr
  exact ⟨part, more, hv, hm, rfl⟩

lemma unfoldNodes_cons {node : Node} {rest : List Node} {us : List Unfolding}
    (h : unfoldNodes expand (node :: rest) = some us) :
    ∃ u more, expand node = some u ∧ unfoldNodes expand rest = some more ∧ us = u :: more := by
  obtain ⟨u, hn, hr⟩ := Option.bind_eq_some_iff.mp h
  obtain ⟨more, hm, rfl⟩ := Option.map_eq_some_iff.mp hr
  exact ⟨u, more, hn, hm, rfl⟩

lemma unfoldAttributes_append {first second : List Attribute}
    {parts : List (String × Part Unfolding)} :
    unfoldAttributes target expand (first ++ second) = some parts ↔ ∃ ps qs,
      unfoldAttributes target expand first = some ps ∧
        unfoldAttributes target expand second = some qs ∧ parts = ps ++ qs := by
  induction first generalizing parts with
  | nil => simp [unfoldAttributes]
  | cons a rest ih =>
    obtain ⟨name, value⟩ := a
    constructor
    · intro h
      obtain ⟨part, more, hv, hm, rfl⟩ := unfoldAttributes_cons h
      obtain ⟨ps, qs, hp, hq, rfl⟩ := ih.mp hm
      exact ⟨(name, part) :: ps, qs, by simp [unfoldAttributes, hv, hp], hq, rfl⟩
    · rintro ⟨ps, qs, hp, hq, rfl⟩
      obtain ⟨part, more, hv, hm, rfl⟩ := unfoldAttributes_cons hp
      have hrest := ih.mpr ⟨more, qs, hm, hq, rfl⟩
      simp [unfoldAttributes, hv, hrest]

lemma unfoldNodes_append {first second : List Node} {us : List Unfolding} :
    unfoldNodes expand (first ++ second) = some us ↔ ∃ vs ws,
      unfoldNodes expand first = some vs ∧ unfoldNodes expand second = some ws ∧ us = vs ++ ws := by
  induction first generalizing us with
  | nil => simp [unfoldNodes]
  | cons node rest ih =>
    constructor
    · intro h
      obtain ⟨u, more, hn, hm, rfl⟩ := unfoldNodes_cons h
      obtain ⟨vs, ws, hv, hw, rfl⟩ := ih.mp hm
      exact ⟨u :: vs, ws, by simp [unfoldNodes, hn, hv], hw, rfl⟩
    · rintro ⟨vs, ws, hv, hw, rfl⟩
      obtain ⟨u, more, hn, hm, rfl⟩ := unfoldNodes_cons hv
      have hrest := ih.mpr ⟨more, ws, hm, hw, rfl⟩
      simp [unfoldNodes, hn, hrest]

lemma length_parts {attributes : List Attribute} {parts : List (String × Part Unfolding)}
    (h : unfoldAttributes target expand attributes = some parts) :
    parts.length = attributes.length := by
  induction attributes generalizing parts with
  | nil =>
    obtain rfl := Option.some.inj h
    rfl
  | cons a rest ih =>
    obtain ⟨part, more, _, hm, rfl⟩ := unfoldAttributes_cons h
    rw [List.length_cons, List.length_cons, ih hm]

lemma length_unfoldings {nodes : List Node} {us : List Unfolding}
    (h : unfoldNodes expand nodes = some us) : us.length = nodes.length := by
  induction nodes generalizing us with
  | nil =>
    obtain rfl := Option.some.inj h
    rfl
  | cons node rest ih =>
    obtain ⟨u, more, _, hm, rfl⟩ := unfoldNodes_cons h
    rw [List.length_cons, List.length_cons, ih hm]

lemma isSome_of_unfoldChildren {nodes : Option (List Node)} {us : Option (List Unfolding)}
    (h : unfoldChildren expand nodes = some us) :
    us.isSome = nodes.isSome := by
  cases nodes with
  | none =>
    obtain rfl := Option.some.inj h
    rfl
  | some nodes =>
    obtain ⟨vs, _, rfl⟩ := Option.map_eq_some_iff.mp h
    rfl

lemma children_of_unfolded {node : Node} {us : List Unfolding}
    (h : unfoldChildren expand node.childNodes = some (some us)) :
    ∃ nodes, node.children = some nodes ∧ unfoldNodes expand nodes = some us := by
  cases hn : node.childNodes with
  | none => simp [hn, unfoldChildren] at h
  | some nodes =>
    rw [hn] at h
    obtain ⟨vs, hv, hs⟩ := Option.map_eq_some_iff.mp h
    obtain rfl := Option.some.inj hs
    exact ⟨nodes, Option.eq_some_of_filter_eq_some hn, hv⟩

lemma childNodes_of_ne_nil {node : Node} {nodes : List Node} (hn : node.children = some nodes)
    (hne : nodes ≠ []) : node.childNodes = some nodes := by
  cases nodes with
  | nil => exact absurd rfl hne
  | cons first rest => simp [Node.childNodes, hn, Option.filter]

lemma unfoldChildren_of_ne_nil {node : Node} {nodes : List Node} {us : List Unfolding}
    (hn : node.children = some nodes) (hne : nodes ≠ []) (hu : unfoldNodes expand nodes = some us) :
    unfoldChildren expand node.childNodes = some (some us) := by
  rw [childNodes_of_ne_nil hn hne, unfoldChildren, hu, Option.map_some]

lemma unfolded_of_child {node : Node} {us : Option (List Unfolding)}
    (h : unfoldChildren expand node.childNodes = some us) {nodes : List Node}
    (hn : node.children = some nodes) {sub : Node} (hs : sub ∈ nodes) :
    ∃ vs, us = some vs ∧ unfoldNodes expand nodes = some vs := by
  rw [childNodes_of_ne_nil hn (List.ne_nil_of_mem hs)] at h
  obtain ⟨vs, hv, rfl⟩ := Option.map_eq_some_iff.mp h
  exact ⟨vs, rfl, hv⟩

end Inversion

lemma unfoldWithin_cases {target : Target} {depth : Nat} {node : Node} {u : Unfolding}
    (h : unfoldWithin target (depth + 1) node = some u) :
    (resolved? target node = none ∧ u = .missing node.component) ∨
      ∃ name component parts us, resolved? target node = some (name, component) ∧
        unfoldAttributes target (unfoldWithin target depth)
          (node.mergedAttributes component.defaults) = some parts ∧
        unfoldChildren (unfoldWithin target depth) node.childNodes = some us ∧
        u = .tag name parts node.childrenKey us := by
  cases hr : resolved? target node with
  | none =>
    simp only [unfoldWithin, hr, Option.some.injEq] at h
    exact Or.inl ⟨rfl, h.symm⟩
  | some found =>
    obtain ⟨name, component⟩ := found
    simp only [unfoldWithin, hr] at h
    obtain ⟨parts, hp, hc⟩ := Option.bind_eq_some_iff.mp h
    obtain ⟨us, hu, rfl⟩ := Option.map_eq_some_iff.mp hc
    exact Or.inr ⟨name, component, parts, us, rfl, hp, hu, rfl⟩

lemma unfoldWithin_of_resolved {target : Target} {depth : Nat} {node : Node} {u : Unfolding}
    {name : String} {component : Component} (hr : resolved? target node = some (name, component))
    (h : unfoldWithin target depth node = some u) :
    ∃ more parts us, depth = more + 1 ∧ unfoldAttributes target (unfoldWithin target more)
        (node.mergedAttributes component.defaults) = some parts ∧
      unfoldChildren (unfoldWithin target more) node.childNodes = some us ∧
      u = .tag name parts node.childrenKey us := by
  cases depth with
  | zero => exact absurd h (by simp [unfoldWithin])
  | succ more =>
    rcases unfoldWithin_cases h with ⟨hn, _⟩ | ⟨_, _, parts, us, ho, hp, hu, rfl⟩
    · exact absurd (hn.symm.trans hr) (by simp)
    · obtain ⟨rfl, rfl⟩ := resolved_unique ho hr
      exact ⟨more, parts, us, rfl, hp, hu, rfl⟩

lemma unfoldWithin_missing {target : Target} {node : Node} (hr : resolved? target node = none)
    (depth : Nat) : unfoldWithin target (depth + 1) node = some (.missing node.component) := by
  simp [unfoldWithin, hr]

lemma unfoldWithin_of_unresolved {target : Target} {depth : Nat} {node : Node} {u : Unfolding}
    (hr : resolved? target node = none) (h : unfoldWithin target depth node = some u) :
    u = .missing node.component := by
  cases depth with
  | zero => exact absurd h (by simp [unfoldWithin])
  | succ more => exact Option.some.inj (h.symm.trans (unfoldWithin_missing hr more))

lemma unfoldWithin_tag {target : Target} {depth : Nat} {node : Node} {name : String}
    {component : Component} {parts : List (String × Part Unfolding)} {us : Option (List Unfolding)}
    (hr : resolved? target node = some (name, component))
    (hp : unfoldAttributes target (unfoldWithin target depth)
      (node.mergedAttributes component.defaults) = some parts)
    (hu : unfoldChildren (unfoldWithin target depth) node.childNodes = some us) :
    unfoldWithin target (depth + 1) node = some (.tag name parts node.childrenKey us) := by
  simp [unfoldWithin, hr, hp, hu]

namespace Unfolding

mutual

def visible : Unfolding → Option Element
  | .missing _ => none
  | .tag name attributes _ none => some ⟨name, visibleAttributes attributes, none⟩
  | .tag name attributes _ (some children) =>
    some ⟨name, visibleAttributes attributes, some (visibleChildren children)⟩

def visibleAttributes : List (String × Part Unfolding) → List (String × Form Element)
  | [] => []
  | (name, part) :: rest =>
    match visiblePart name part with
    | none => visibleAttributes rest
    | some form => (name, form) :: visibleAttributes rest

def visiblePart (name : String) : Part Unfolding → Option (Form Element)
  | .bare => if name.isEmpty then none else some .bare
  | .text escaped => some (.text escaped)
  | .literal text => some (.literal text)
  | .reference component => some (.reference component)
  | .block inner => (visible inner).map .block
  | .unevaluable => none
  | .dropped => none

def visibleChildren : List Unfolding → List Element
  | [] => []
  | child :: rest =>
    match visible child with
    | none => visibleChildren rest
    | some e => e :: visibleChildren rest

end

mutual

def log (level : Nat) (path : Path) : Unfolding → Log
  | .missing component => [.reported (unresolved component path)]
  | .tag name attributes _ none => .compiling name level :: attributesLog (level + 1) path attributes
  | .tag name attributes key (some children) =>
    .compiling name level :: (attributesLog (level + 1) path attributes
      ++ childrenLog (level + 1) (path.child key) 0 children)

def attributesLog (level : Nat) (path : Path) : List (String × Part Unfolding) → Log
  | [] => []
  | (name, part) :: rest => partLog level path name part ++ attributesLog level path rest

def partLog (level : Nat) (path : Path) (name : String) : Part Unfolding → Log
  | .block inner => log (level + 1) (path.child name) inner
  | .unevaluable => [.reported (unevaluable name path)]
  | _ => []

def childrenLog (level : Nat) (path : Path) (i : Nat) : List Unfolding → Log
  | [] => []
  | child :: rest => log level (path.index i) child ++ childrenLog level path (i + 1) rest

end

lemma visible_tag (name : String) (parts : List (String × Part Unfolding)) (key : String)
    (us : Option (List Unfolding)) :
    (Unfolding.tag name parts key us).visible =
      some ⟨name, visibleAttributes parts, us.map visibleChildren⟩ := by
  cases us <;> rfl

lemma visibleAttributes_append (ps qs : List (String × Part Unfolding)) :
    visibleAttributes (ps ++ qs) = visibleAttributes ps ++ visibleAttributes qs := by
  induction ps with
  | nil => simp [visibleAttributes]
  | cons p rest ih =>
    obtain ⟨name, part⟩ := p
    rw [List.cons_append, visibleAttributes, visibleAttributes, ih]
    split <;> rfl

lemma visibleChildren_append (us vs : List Unfolding) :
    visibleChildren (us ++ vs) = visibleChildren us ++ visibleChildren vs := by
  induction us with
  | nil => simp [visibleChildren]
  | cons u rest ih =>
    rw [List.cons_append, visibleChildren, visibleChildren, ih]
    split <;> rfl

def markup (indent : String) (level : Nat) (u : Unfolding) : String :=
  (u.visible.map fun e => layout indent (e.lines level)).getD ""

def partText (indent : String) (level : Nat) (name : String) (part : Part Unfolding) : String :=
  ((visiblePart name part).map (Element.formText indent level name)).getD ""

lemma markup_eq_empty (indent : String) (level : Nat) (u : Unfolding) :
    u.markup indent level = "" ↔ u.visible = none := by
  cases hv : u.visible with
  | none => simp [markup, hv]
  | some e => simp [markup, hv, Element.layout_lines_ne_empty]

end Unfolding

def Context.extend (c : Context) (log : Log) : Context :=
  ⟨c.diagnostics ++ log.diagnostics, c.log ++ log⟩

@[simp] lemma Context.extend_nil (c : Context) : c.extend [] = c := by
  simp [Context.extend, Log.diagnostics]

@[simp] lemma Context.extend_extend (c : Context) (first second : Log) :
    (c.extend first).extend second = c.extend (first ++ second) := by
  simp [Context.extend, Log.diagnostics, ← Array.toList_inj]

@[simp] lemma run_tell (event : Event) (h : event.diagnostic? = none) (c : Context) :
    (tell event).run c = some ((), c.extend [event]) := by
  simp [tell, Context.extend, Log.diagnostics, h]

@[simp] lemma run_report (d : Diagnostic) (c : Context) :
    (report d).run c = some ((), c.extend [.reported d]) := by
  simp [report, Context.extend, Log.diagnostics, Event.diagnostic?]

section Runs

variable (target : Target) (compile : Compiler) (expand : Node → Option Unfolding)

def Agrees : Prop :=
  ∀ node level path c, (compile node level path).run c =
    (expand node).map fun u => (u.markup target.options.indent level, c.extend (u.log level path))

variable {target compile expand} (h : Agrees target compile expand)

include h

lemma attributeText_run (a : Attribute) (level : Nat) (path : Path) (c : Context) :
    (attributeText target compile a level path).run c =
      (partOf target expand a.2).map fun part =>
        (Unfolding.partText target.options.indent level a.1 part,
          c.extend (Unfolding.partLog level path a.1 part)) := by
  obtain ⟨name, value⟩ := a
  cases value with
  | node node =>
    have hn := h node (level + 1) (path.child name) c
    cases hu : expand node with
    | none => simp [attributeText, partOf, hn, hu]
    | some u =>
      cases hv : u.visible with
      | none =>
        have he := (Unfolding.markup_eq_empty target.options.indent (level + 1) u).mpr hv
        simp [attributeText, partOf, hn, hu, he, Unfolding.partText, Unfolding.visiblePart, hv,
          Unfolding.partLog]
      | some e =>
        have hm : u.markup target.options.indent (level + 1) =
            layout target.options.indent (e.lines (level + 1)) := by
          simp [Unfolding.markup, hv]
        have he := Element.layout_lines_ne_empty target.options.indent (level + 1) e
        simp [attributeText, partOf, hn, hu, hm, he, Unfolding.partText, Unfolding.visiblePart, hv,
          Unfolding.partLog, Element.formText, Target.indentation]
  | reference component =>
    cases hc : NameMap.contains target.registry component <;>
      simp [attributeText, partOf, hc, Unfolding.partText, Unfolding.visiblePart, Unfolding.partLog,
        Element.formText]
  | boolean b =>
    cases b with
    | false =>
      simp [attributeText, partOf, Unfolding.partText, Unfolding.visiblePart, Unfolding.partLog,
        Element.formText]
    | true =>
      by_cases hn : name = "" <;>
        simp [attributeText, partOf, Unfolding.partText, Unfolding.visiblePart, Unfolding.partLog,
          Element.formText, hn]
  | _ =>
    simp [attributeText, partOf, Unfolding.partText, Unfolding.visiblePart, Unfolding.partLog,
      Element.formText, quoted]

lemma attributeTexts_run (attributes : List Attribute) (level : Nat) (path : Path) (c : Context) :
    (attributeTexts target compile level path attributes).run c =
      (unfoldAttributes target expand attributes).map fun parts =>
        (parts.map fun p => Unfolding.partText target.options.indent level p.1 p.2,
          c.extend (Unfolding.attributesLog level path parts)) := by
  induction attributes generalizing c with
  | nil => simp [attributeTexts, unfoldAttributes, Unfolding.attributesLog]
  | cons a rest ih =>
    have ha := attributeText_run h a level path c
    cases hp : partOf target expand a.2 with
    | none => simp [attributeTexts, unfoldAttributes, ha, hp]
    | some part =>
      have hi := ih (c.extend (Unfolding.partLog level path a.1 part))
      cases hr : unfoldAttributes target expand rest with
      | none => simp [attributeTexts, unfoldAttributes, ha, hp, hi, hr]
      | some parts =>
        simp [attributeTexts, unfoldAttributes, ha, hp, hi, hr, Unfolding.attributesLog]

lemma childTexts_run (nodes : List Node) (level : Nat) (path : Path) (i : Nat) (c : Context) :
    (childTexts compile level path i nodes).run c =
      (unfoldNodes expand nodes).map fun us =>
        (us.map fun u => u.markup target.options.indent level,
          c.extend (Unfolding.childrenLog level path i us)) := by
  induction nodes generalizing i c with
  | nil => simp [childTexts, unfoldNodes, Unfolding.childrenLog]
  | cons node rest ih =>
    have hn := h node level (path.index i) c
    cases hu : expand node with
    | none => simp [childTexts, unfoldNodes, hn, hu]
    | some u =>
      have hi := ih (i + 1) (c.extend (u.log level (path.index i)))
      cases hr : unfoldNodes expand rest with
      | none => simp [childTexts, unfoldNodes, hn, hu, hi, hr]
      | some us => simp [childTexts, unfoldNodes, hn, hu, hi, hr, Unfolding.childrenLog]

end Runs

section Assembly

variable (indent : String) (level : Nat) (name : String)

lemma Unfolding.formText_ne_empty {part : Part Unfolding} {form : Form Element}
    (h : visiblePart name part = some form) : Element.formText indent level name form ≠ "" := by
  cases form with
  | bare =>
    cases part with
    | bare =>
      simp only [visiblePart] at h
      split at h
      · exact absurd h (by simp)
      · next hn => simpa [Element.formText] using hn
    | block inner => simp [visiblePart] at h
    | _ => simp [visiblePart] at h
  | _ => simp [Element.formText, braced]

lemma shown_partTexts (parts : List (String × Part Unfolding)) :
    shown (parts.map fun p => Unfolding.partText indent level p.1 p.2) =
      (Unfolding.visibleAttributes parts).map fun a => Element.formText indent level a.1 a.2 := by
  induction parts with
  | nil => rfl
  | cons p rest ih =>
    obtain ⟨n, part⟩ := p
    cases hv : Unfolding.visiblePart n part with
    | none => simpa [shown, Unfolding.partText, Unfolding.visibleAttributes, hv] using ih
    | some form =>
      have hne := Unfolding.formText_ne_empty indent level n hv
      simpa [shown, Unfolding.partText, Unfolding.visibleAttributes, hv, hne] using ih

lemma shown_markups (us : List Unfolding) :
    shown (us.map fun u => u.markup indent level) =
      (Unfolding.visibleChildren us).map fun e => layout indent (e.lines level) := by
  induction us with
  | nil => rfl
  | cons u rest ih =>
    cases hv : u.visible with
    | none => simpa [shown, Unfolding.markup, Unfolding.visibleChildren, hv] using ih
    | some e =>
      have hne := Element.layout_lines_ne_empty indent level e
      simpa [shown, Unfolding.markup, Unfolding.visibleChildren, hv, hne] using ih

lemma join_formTexts {attributes : List (String × Form Element)} (h : attributes ≠ []) :
    String.join (attributes.map fun a =>
        repeated indent level ++ Element.formText indent level a.1 a.2 ++ "\n") =
      layout indent (Element.attributeLines level attributes) ++ "\n" := by
  induction attributes with
  | nil => exact absurd rfl h
  | cons a rest ih =>
    have hf := Element.layout_formLines indent level a.1 a.2
    rw [List.map_cons, String.join_cons, ← hf]
    cases rest with
    | nil => simp [Element.attributeLines]
    | cons b rest =>
      have hi := ih (List.cons_ne_nil b rest)
      have hne : Element.attributeLines level (b :: rest) ≠ [] := by
        simp [Element.attributeLines, Element.formLines_ne_nil]
      have hs : Element.attributeLines level (a :: b :: rest) =
          Element.formLines level a.1 a.2 ++ Element.attributeLines level (b :: rest) := rfl
      rw [hi, hs, layout_append indent (Element.formLines_ne_nil _ _ _) hne]
      simp only [String.append_assoc]

lemma join_children (children : List Element) (line : Line) :
    String.join (children.map fun e => "\n" ++ layout indent (e.lines level)) ++ "\n"
        ++ indented indent line =
      "\n" ++ layout indent (Element.childLines level children ++ [line]) := by
  induction children with
  | nil => simp [Element.childLines, layout_singleton]
  | cons e rest ih =>
    have hne : Element.childLines level rest ++ [line] ≠ [] := by simp
    rw [Element.childLines, List.append_assoc, layout_append indent (Element.lines_ne_nil level e) hne]
    simp only [List.map_cons, String.join_cons, String.append_assoc] at ih ⊢
    rw [ih]

lemma openingText_eq (attributes : List (String × Form Element)) (ending : String) :
    openingText (repeated indent level) (repeated indent (level + 1)) name
        (attributes.map fun a => Element.formText indent (level + 1) a.1 a.2) ++ ending =
      layout indent (tagLines level name (Element.attributeLines (level + 1) attributes) ending) := by
  cases attributes with
  | nil =>
    simp [openingText, tagLines, Element.attributeLines, layout_singleton, indented,
      String.append_assoc]
  | cons a rest =>
    have hj := join_formTexts indent (level + 1) (List.cons_ne_nil a rest)
    have hne : Element.attributeLines (level + 1) (a :: rest) ≠ [] := by
      simp [Element.attributeLines, Element.formLines_ne_nil]
    have ht : tagLines level name (Element.attributeLines (level + 1) (a :: rest)) ending =
        (level, "<" ++ name) ::
          (Element.attributeLines (level + 1) (a :: rest) ++ [(level, ending)]) := by
      simp [tagLines, hne]
    rw [ht, layout_cons indent _ (by simp), layout_concat indent hne]
    simp only [openingText, List.map_map, Function.comp_def, hj]
    simp [indented, String.append_assoc]

lemma markup_childless (parts : List (String × Part Unfolding)) (key : String) :
    (Unfolding.tag name parts key none).markup indent level =
      openingText (repeated indent level) (repeated indent (level + 1)) name
          (shown (parts.map fun p => Unfolding.partText indent (level + 1) p.1 p.2))
        ++ closingText (repeated indent level) name none := by
  rw [shown_partTexts, closingText, openingText_eq]
  simp [Unfolding.markup, Unfolding.visible, Element.lines]

lemma markup_children (parts : List (String × Part Unfolding)) (key : String)
    (us : List Unfolding) :
    (Unfolding.tag name parts key (some us)).markup indent level =
      openingText (repeated indent level) (repeated indent (level + 1)) name
          (shown (parts.map fun p => Unfolding.partText indent (level + 1) p.1 p.2))
        ++ closingText (repeated indent level) name
          (some (shown (us.map fun u => u.markup indent (level + 1)))) := by
  have ho := openingText_eq indent level name (Unfolding.visibleAttributes parts) ">"
  have hj := join_children indent (level + 1) (Unfolding.visibleChildren us)
    (level, "</" ++ name ++ ">")
  simp only [indented, String.append_assoc] at ho hj
  rw [shown_partTexts, shown_markups]
  simp only [Unfolding.markup, Unfolding.visible, Element.lines, Option.map_some, Option.getD_some]
  rw [layout_append indent (tagLines_ne_nil _ _ _ _) (by simp), ← ho]
  simp only [closingText, List.map_map, Function.comp_def, String.append_assoc, ← hj]

lemma openingText_eq_append (attributeIndent : String) (attributes : List String) :
    ∃ text, ∀ name, openingText indent attributeIndent name attributes =
      indent ++ "<" ++ name ++ text := by
  cases attributes with
  | nil => exact ⟨"", fun name => by simp [openingText]⟩
  | cons first rest =>
    refine ⟨"\n" ++ String.join ((first :: rest).map fun a => attributeIndent ++ a ++ "\n") ++ indent,
      fun name => ?_⟩
    simp [openingText, String.append_assoc]

end Assembly

/-- Compiling to a depth gives the markup and the log of what the node unfolds to at that depth. -/
theorem compileWithin_run (target : Target) (depth : Nat) :
    Agrees target (compileWithin target depth) (unfoldWithin target depth) := by
  induction depth with
  | zero =>
    intro node level path c
    rfl
  | succ depth ih =>
    intro node level path c
    cases hr : resolved? target node with
    | none =>
      simp [compileWithin, unfoldWithin, hr, Unfolding.markup, Unfolding.visible, Unfolding.log]
    | some found =>
      obtain ⟨name, component⟩ := found
      have hc : Event.diagnostic? (.compiling name level) = none := rfl
      have ha := attributeTexts_run ih (node.mergedAttributes component.defaults) (level + 1) path
        (c.extend [.compiling name level])
      cases hp : unfoldAttributes target (unfoldWithin target depth)
          (node.mergedAttributes component.defaults) with
      | none => simp [compileWithin, unfoldWithin, hr, hc, ha, hp]
      | some parts =>
        cases hn : node.childNodes with
        | none =>
          have hm := markup_childless target.options.indent level name parts node.childrenKey
          simp [compileWithin, unfoldWithin, hr, hc, ha, hp, hn, unfoldChildren, hm, Unfolding.log,
            Target.indentation]
        | some nodes =>
          have hs := childTexts_run ih nodes (level + 1) (path.child node.childrenKey) 0
            (c.extend (.compiling name level :: Unfolding.attributesLog (level + 1) path parts))
          cases hu : unfoldNodes (unfoldWithin target depth) nodes with
          | none =>
            simp [compileWithin, unfoldWithin, hr, hc, ha, hp, hn, unfoldChildren, hs, hu]
          | some us =>
            have hm := markup_children target.options.indent level name parts node.childrenKey us
            simp [compileWithin, unfoldWithin, hr, hc, ha, hp, hn, unfoldChildren, hs, hu, hm,
              Unfolding.log, Target.indentation]

lemma visible_isSome {target : Target} {depth : Nat} {node : Node} {u : Unfolding}
    (hu : unfoldWithin target depth node = some u) :
    u.visible.isSome = (resolved? target node).isSome := by
  cases depth with
  | zero => exact absurd hu (by simp [unfoldWithin])
  | succ depth =>
    rcases unfoldWithin_cases hu with ⟨hr, rfl⟩ | ⟨name, component, parts, us, hr, _, _, rfl⟩
    · rw [hr]
      rfl
    · rw [hr, Unfolding.visible_tag]
      rfl

def unfold (target : Target) (node : Node) : Option Unfolding :=
  unfoldWithin target (depthFor target node) node

lemma compileNode_agrees (target : Target) : Agrees target (compileNode target) (unfold target) :=
  fun node => compileWithin_run target (depthFor target node) node

lemma compile_eq (target : Target) (node : Node) :
    compile target node = (unfoldWithin target (depthFor target node) node).map fun u =>
      ⟨u.markup target.options.indent 0, (u.log 0 []).diagnostics, u.log 0 []⟩ := by
  have hr := compileWithin_run target (depthFor target node) node 0 [] Context.empty
  rw [compile, compileNode, hr, Option.map_map]
  simp [Function.comp_def, Context.extend, Context.empty]

end TreeMarkup.Markup
