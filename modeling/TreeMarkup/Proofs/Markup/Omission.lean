import Mathlib.Data.List.Forall2
import TreeMarkup.Proofs.Markup.Stability

namespace TreeMarkup.Markup

def Compiles (target : Target) (level : Nat) (path : Path) (node : Node) (text : String) : Prop :=
  ∀ c, ∃ after, (compileNode target node level path).run c = some (text, after)

def Serializes (target : Target) (level : Nat) (path : Path) (a : Attribute) (text : String) : Prop :=
  ∀ c, ∃ after, (serializeAttribute target a level path).run c = some (text, after)

/-- The attribute has no form. One that is set without a value has only its name to show. -/
def isOmitted (target : Target) : Attribute → Bool
  | (name, .boolean true) => name.isEmpty
  | (_, .reference component) => !NameMap.contains target.registry component
  | (_, .node node) => (resolved? target node).isNone
  | (_, .unevaluable) | (_, .unsupported) => true
  | _ => false

section Texts

variable {target : Target} {level : Nat} {path : Path}

lemma exists_compileNode_iff {node : Node} {text : String} {c : Context} :
    (∃ after, (compileNode target node level path).run c = some (text, after)) ↔
      ∃ u, unfold target node = some u ∧ text = u.markup target.options.indent level := by
  rw [compileNode_agrees]
  constructor
  · rintro ⟨after, h⟩
    obtain ⟨u, hu, he⟩ := Option.map_eq_some_iff.mp h
    exact ⟨u, hu, (Prod.mk.inj he).1.symm⟩
  · rintro ⟨u, hu, rfl⟩
    exact ⟨_, Option.map_eq_some_iff.mpr ⟨u, hu, rfl⟩⟩

lemma exists_serializeAttribute_iff {a : Attribute} {text : String} {c : Context} :
    (∃ after, (serializeAttribute target a level path).run c = some (text, after)) ↔
      ∃ part, partOf target (unfold target) a.2 = some part ∧
        text = Unfolding.partText target.options.indent level a.1 part := by
  rw [serializeAttribute, attributeText_run (compileNode_agrees target)]
  constructor
  · rintro ⟨after, h⟩
    obtain ⟨part, hp, he⟩ := Option.map_eq_some_iff.mp h
    exact ⟨part, hp, (Prod.mk.inj he).1.symm⟩
  · rintro ⟨part, hp, rfl⟩
    exact ⟨_, Option.map_eq_some_iff.mpr ⟨part, hp, rfl⟩⟩

lemma compiles_iff {node : Node} {text : String} : Compiles target level path node text ↔
    ∃ u, unfold target node = some u ∧ text = u.markup target.options.indent level :=
  ⟨fun h => exists_compileNode_iff.mp (h Context.empty), fun h _ => exists_compileNode_iff.mpr h⟩

lemma serializes_iff {a : Attribute} {text : String} : Serializes target level path a text ↔
    ∃ part, partOf target (unfold target) a.2 = some part ∧
      text = Unfolding.partText target.options.indent level a.1 part :=
  ⟨fun h => exists_serializeAttribute_iff.mp (h Context.empty),
    fun h _ => exists_serializeAttribute_iff.mpr h⟩

lemma visible_eq_none {node : Node} {u : Unfolding} (hu : unfold target node = some u) :
    u.visible = none ↔ resolved? target node = none := by
  have hs : u.visible.isSome = (resolved? target node).isSome := visible_isSome hu
  rw [← Option.isNone_iff_eq_none, ← Option.isNone_iff_eq_none, ← Option.not_isSome,
    ← Option.not_isSome, hs]

lemma Compiles.eq_empty_iff {node : Node} {text : String} (h : Compiles target level path node text) :
    text = "" ↔ resolved? target node = none := by
  obtain ⟨u, hu, rfl⟩ := compiles_iff.mp h
  rw [Unfolding.markup_eq_empty, visible_eq_none hu]

lemma compiles_empty_iff {node : Node} :
    Compiles target level path node "" ↔ resolved? target node = none := by
  refine ⟨fun h => h.eq_empty_iff.mp rfl, fun hr => ?_⟩
  exact compiles_iff.mpr ⟨_, unfold_of_unfoldWithin (unfoldWithin_missing hr 0), rfl⟩

lemma partText_eq_empty {name : String} {part : Part Unfolding} (indent : String) :
    Unfolding.partText indent level name part = "" ↔ Unfolding.visiblePart name part = none := by
  cases hv : Unfolding.visiblePart name part with
  | none => simp [Unfolding.partText, hv]
  | some form =>
    have hne := Unfolding.formText_ne_empty indent level name hv
    simp [Unfolding.partText, hv, hne]

lemma visiblePart_eq_none {a : Attribute} {part : Part Unfolding}
    (hp : partOf target (unfold target) a.2 = some part) :
    Unfolding.visiblePart a.1 part = none ↔ isOmitted target a = true := by
  obtain ⟨name, value⟩ := a
  cases value with
  | node node =>
    obtain ⟨u, hu, rfl⟩ := Option.map_eq_some_iff.mp hp
    simp [Unfolding.visiblePart, isOmitted, visible_eq_none hu]
  | reference component =>
    obtain rfl := Option.some.inj hp
    cases hc : NameMap.contains target.registry component <;>
      simp [Unfolding.visiblePart, isOmitted, hc]
  | boolean b =>
    cases b <;> obtain rfl := Option.some.inj hp <;> simp [Unfolding.visiblePart, isOmitted]
  | _ =>
    obtain rfl := Option.some.inj hp
    simp [Unfolding.visiblePart, isOmitted]

lemma Serializes.eq_empty_iff {a : Attribute} {text : String}
    (h : Serializes target level path a text) : text = "" ↔ isOmitted target a = true := by
  obtain ⟨part, hp, rfl⟩ := serializes_iff.mp h
  rw [partText_eq_empty, visiblePart_eq_none hp]

lemma Element.formText_eq_append (indent : String) (depth : Nat) (name : String)
    (form : Form Element) : ∃ value, Element.formText indent depth name form = name ++ value := by
  cases form with
  | bare => exact ⟨"", String.append_empty.symm⟩
  | text escaped => exact ⟨_, by rw [Element.formText, String.append_assoc, String.append_assoc]⟩
  | _ => exact ⟨_, by rw [Element.formText, braced, String.append_assoc, String.append_assoc]⟩

lemma Serializes.eq_append {a : Attribute} {text : String} (h : Serializes target level path a text)
    (hne : text ≠ "") : ∃ value, text = a.1 ++ value := by
  obtain ⟨part, hp, rfl⟩ := serializes_iff.mp h
  obtain ⟨form, hv⟩ := Option.ne_none_iff_exists'.mp (mt (partText_eq_empty _).mpr hne)
  obtain ⟨value, hf⟩ := Element.formText_eq_append target.options.indent level a.1 form
  exact ⟨value, by rw [← hf, Unfolding.partText, hv, Option.map_some, Option.getD_some]⟩

lemma Serializes.node {name : String} {node : Node} {text inner : String}
    (h : Serializes target level path (name, .node node) text)
    (hi : Compiles target (level + 1) (path.child name) node inner) (hne : inner ≠ "") :
    text = braced name ("\n" ++ inner ++ "\n" ++ target.indentation level) := by
  obtain ⟨part, hp, rfl⟩ := serializes_iff.mp h
  obtain ⟨u, hu, rfl⟩ := compiles_iff.mp hi
  rw [partOf, hu, Option.map_some] at hp
  obtain rfl := Option.some.inj hp
  obtain ⟨e, he⟩ := Option.ne_none_iff_exists'.mp (mt (Unfolding.markup_eq_empty _ _ u).mpr hne)
  simp only [Unfolding.partText, Unfolding.visiblePart, Unfolding.markup, he, Option.map_some,
    Option.getD_some, Element.formText, Target.indentation]

end Texts

section Kept

variable {target : Target} {level : Nat} {path : Path} {depth : Nat}

lemma partOf_unfold {value : AttributeValue Node} {part : Part Unfolding}
    (h : partOf target (unfoldWithin target depth) value = some part) :
    partOf target (unfold target) value = some part := by
  cases value with
  | node node =>
    obtain ⟨u, hu, rfl⟩ := Option.map_eq_some_iff.mp h
    rw [partOf, unfold_of_unfoldWithin hu, Option.map_some]
  | boolean b => cases b <;> exact h
  | _ => exact h

lemma serializes_partTexts {attributes : List Attribute} {parts : List (String × Part Unfolding)}
    (h : unfoldAttributes target (unfoldWithin target depth) attributes = some parts) :
    List.Forall₂ (Serializes target level path) attributes
      (parts.map fun p => Unfolding.partText target.options.indent level p.1 p.2) := by
  induction attributes generalizing parts with
  | nil =>
    obtain rfl := Option.some.inj h
    exact .nil
  | cons a rest ih =>
    obtain ⟨part, more, hp, hm, rfl⟩ := unfoldAttributes_cons h
    exact .cons (serializes_iff.mpr ⟨part, partOf_unfold hp, rfl⟩) (ih hm)

lemma compiles_markups {nodes : List Node} {us : List Unfolding}
    (h : unfoldNodes (unfoldWithin target depth) nodes = some us) (i : Nat) :
    List.Forall₂ (fun child => Compiles target level (path.index child.2) child.1) (nodes.zipIdx i)
      (us.map fun u => u.markup target.options.indent level) := by
  induction nodes generalizing us i with
  | nil =>
    obtain rfl := Option.some.inj h
    exact .nil
  | cons node rest ih =>
    obtain ⟨u, more, hu, hm, rfl⟩ := unfoldNodes_cons h
    exact .cons (compiles_iff.mpr ⟨u, unfold_of_unfoldWithin hu, rfl⟩) (ih hm (i + 1))

lemma forall₂_shown {α : Type} {r : α → String → Prop} {omitted : α → Bool}
    (hr : ∀ x text, r x text → (text = "" ↔ omitted x = true)) {xs : List α} {texts : List String}
    (h : List.Forall₂ r xs texts) :
    List.Forall₂ r (xs.filter fun x => !omitted x) (shown texts) := by
  refine List.rel_filter (fun x text hx => ?_) h
  have hempty := not_congr (hr x text hx)
  simpa using hempty.symm

end Kept

section Tags

variable {target : Target} {level : Nat} {path : Path} {node : Node}

lemma markup_tag_eq (indent : String) (level : Nat) (name : String)
    (parts : List (String × Part Unfolding)) (key : String) (us : Option (List Unfolding)) :
    (Unfolding.tag name parts key us).markup indent level =
      openingText (repeated indent level) (repeated indent (level + 1)) name
          (shown (parts.map fun p => Unfolding.partText indent (level + 1) p.1 p.2))
        ++ closingText (repeated indent level) name
          (us.map fun us => shown (us.map fun u => u.markup indent (level + 1))) := by
  cases us with
  | none => exact markup_childless indent level name parts key
  | some us => exact markup_children indent level name parts key us

lemma closingText_eq_append (indent name : String) (children : Option (List String)) :
    ∃ text, closingText indent name children = text ++ ">" := by
  cases children with
  | none => exact ⟨"/", rfl⟩
  | some children => exact ⟨_, rfl⟩

def shownChildren (target : Target) (node : Node) : Option (List (Node × Nat)) :=
  node.childNodes.map fun nodes => nodes.zipIdx.filter fun child => !(resolved? target child.1).isNone

/-- The text is the tag of what the node shows: of the attributes that have a form and of the children whose
components are registered, each as it would be alone. -/
def TagOf (target : Target) (level : Nat) (path : Path) (node : Node) (name : String)
    (component : Component) (text : String) : Prop :=
  ∃ attributes children,
    text = openingText (target.indentation level) (target.indentation (level + 1)) name attributes
      ++ closingText (target.indentation level) name children ∧
    List.Forall₂ (Serializes target (level + 1) path)
      ((node.mergedAttributes component.defaults).filter fun a => !isOmitted target a) attributes ∧
    Option.Rel (List.Forall₂ fun child =>
        Compiles target (level + 1) ((path.child node.childrenKey).index child.2) child.1)
      (shownChildren target node) children

lemma TagOf.ends {name : String} {component : Component} {text : String}
    (h : TagOf target level path node name component text) :
    ∃ inner, text = target.indentation level ++ "<" ++ name ++ inner ++ ">" := by
  obtain ⟨attributes, children, rfl, _⟩ := h
  obtain ⟨before, ho⟩ := openingText_eq_append (target.indentation level)
    (target.indentation (level + 1)) attributes
  obtain ⟨behind, hc⟩ := closingText_eq_append (target.indentation level) name children
  exact ⟨before ++ behind, by simp only [ho name, hc, String.append_assoc]⟩

lemma Compiles.tagOf {text : String} (h : Compiles target level path node text) {name : String}
    {component : Component} (hr : resolved? target node = some (name, component)) :
    TagOf target level path node name component text := by
  obtain ⟨u, hu, rfl⟩ := compiles_iff.mp h
  -- What is inside unfolds at a smaller depth, which is enough for it to unfold on its own.
  obtain ⟨depth, parts, us, _, hp, hc, rfl⟩ := unfoldWithin_of_resolved hr hu
  refine ⟨_, _, markup_tag_eq target.options.indent level name parts node.childrenKey us,
    forall₂_shown (fun a text hs => hs.eq_empty_iff) (serializes_partTexts hp), ?_⟩
  rw [shownChildren]
  cases hn : node.childNodes with
  | none =>
    rw [hn] at hc
    obtain rfl := Option.some.inj hc
    exact .none
  | some nodes =>
    rw [hn] at hc
    obtain ⟨vs, hv, rfl⟩ := Option.map_eq_some_iff.mp hc
    refine .some (forall₂_shown (fun child text hs => ?_) (compiles_markups hv 0))
    rw [hs.eq_empty_iff, Option.isNone_iff_eq_none]

end Tags

lemma resolved_eq_none_iff {target : Target} {node : Node} : resolved? target node = none ↔
    ∀ name, node.component = some name → NameMap.contains target.registry name = false := by
  cases hn : node.component with
  | none => simp [resolved?, hn]
  | some name => simp [resolved?, hn, NameMap.contains]

lemma isOmitted_iff {target : Target} {a : Attribute} (hname : a.1 ≠ "") (level : Nat) (path : Path) :
    isOmitted target a = true ↔ a.2 = .unsupported ∨ a.2 = .unevaluable ∨
      (∃ component, a.2 = .reference component ∧
        NameMap.contains target.registry component = false) ∨
      ∃ node, a.2 = .node node ∧ Compiles target level path node "" := by
  obtain ⟨name, value⟩ := a
  cases value with
  | boolean b =>
    cases b with
    | true => simpa [isOmitted] using hname
    | false => simp [isOmitted]
  | _ => simp [isOmitted, compiles_empty_iff]

/-- A node compiles to the empty text when its component is not registered, and to the tag of its component
otherwise. An attribute comes to the empty text when it has no form, and to one that starts with its name
otherwise. What is not empty is all shown. -/
theorem empty_iff_omitted (target : Target) (level : Nat) (path : Path) (c : Context) :
    (∀ node text after, (compileNode target node level path).run c = some (text, after) →
      (text = "" ↔
        ∀ name, node.component = some name → NameMap.contains target.registry name = false) ∧
      ∀ name component, node.component = some name →
        NameMap.get? target.registry name = some component →
        (∃ inner, text = target.indentation level ++ "<" ++ name ++ inner ++ ">") ∧
          TagOf target level path node name component text) ∧
    ∀ a text after, a.1 ≠ "" →
      (serializeAttribute target a level path).run c = some (text, after) →
      (text = "" ↔ a.2 = .unsupported ∨ a.2 = .unevaluable ∨
        (∃ component, a.2 = .reference component ∧
          NameMap.contains target.registry component = false) ∨
        ∃ node, a.2 = .node node ∧ Compiles target (level + 1) (path.child a.1) node "") ∧
      (text ≠ "" → ∃ value, text = a.1 ++ value) ∧
      ∀ node inner, a.2 = .node node → Compiles target (level + 1) (path.child a.1) node inner →
        inner ≠ "" → text = braced a.1 ("\n" ++ inner ++ "\n" ++ target.indentation level) := by
  constructor
  · intro node text after h
    have ht : Compiles target level path node text :=
      compiles_iff.mpr (exists_compileNode_iff.mp ⟨after, h⟩)
    refine ⟨by rw [ht.eq_empty_iff, resolved_eq_none_iff], fun name component hn hg => ?_⟩
    have htag := ht.tagOf (resolved_eq_some.mpr ⟨hn, hg⟩)
    exact ⟨htag.ends, htag⟩
  · intro a text after hname h
    have ht : Serializes target level path a text :=
      serializes_iff.mpr (exists_serializeAttribute_iff.mp ⟨after, h⟩)
    refine ⟨by rw [ht.eq_empty_iff, isOmitted_iff hname], ht.eq_append, fun node inner hv hi hne => ?_⟩
    obtain ⟨name, value⟩ := a
    obtain rfl : value = .node node := hv
    exact ht.node hi hne

section Hollow

def hollowTarget : Target := ⟨[("Box", .host "Box" [])], ⟨"", rootAdapterName⟩⟩

def hollow : Node :=
  Node.ofJson (.object [("_", .string "Box"), ("Lead", .object [("_", .string "Ghost")]),
    ("$", .array #[.object [("_", .string "Ghost")], .object [("_", .string "None")]])])

lemma markup_hollow : ((compileNode hollowTarget hollow 0 []).run Context.empty).map Prod.fst =
    some "<Box>\n</Box>" := by
  decide +kernel

end Hollow

theorem empty_iff_omitted_hollow : ∃ text after,
    (compileNode hollowTarget hollow 0 []).run Context.empty = some (text, after) ∧ text ≠ "" ∧
      ∃ inner, text = hollowTarget.indentation 0 ++ "<" ++ "Box" ++ inner ++ ">" := by
  obtain ⟨⟨text, after⟩, hrun, _⟩ := Option.map_eq_some_iff.mp markup_hollow
  obtain ⟨hnodes, _⟩ := empty_iff_omitted hollowTarget 0 [] Context.empty
  obtain ⟨hempty, htag⟩ := hnodes hollow text after hrun
  obtain ⟨hends, _⟩ := htag "Box" (.host "Box" []) rfl rfl
  refine ⟨text, after, hrun, fun he => ?_, hends⟩
  exact absurd (hempty.mp he "Box" rfl) (by decide)

end TreeMarkup.Markup
