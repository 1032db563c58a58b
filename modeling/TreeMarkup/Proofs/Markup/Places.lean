import Mathlib.Data.List.Basic
import TreeMarkup.Proofs.Markup.Nesting

namespace TreeMarkup.Markup

section Held

def Holds (node sub : Node) : Prop :=
  (∃ a, (a, .node sub) ∈ node.attributes) ∨ ∃ nodes, node.children = some nodes ∧ sub ∈ nodes

mutual

def nodePlaces : Node → List Node
  | ⟨component, attributes, children, key⟩ =>
    ⟨component, attributes, children, key⟩ :: (attributePlaces attributes ++ childPlaces children)

def attributePlaces : List (String × AttributeValue Node) → List Node
  | [] => []
  | (_, value) :: rest => valuePlaces value ++ attributePlaces rest

def valuePlaces : AttributeValue Node → List Node
  | .node node => nodePlaces node
  | _ => []

def childPlaces : Option (List Node) → List Node
  | none => []
  | some nodes => nodesPlaces nodes

def nodesPlaces : List Node → List Node
  | [] => []
  | node :: rest => nodePlaces node ++ nodesPlaces rest

end

mutual

lemma length_nodePlaces : ∀ node : Node, (nodePlaces node).length = nodeWeight node
  | ⟨component, attributes, children, key⟩ => by
    have ha := length_attributePlaces attributes
    have hc := length_childPlaces children
    simp only [nodePlaces, nodeWeight, List.length_cons, List.length_append]
    omega

lemma length_attributePlaces : ∀ attributes : List (String × AttributeValue Node),
    (attributePlaces attributes).length = attributesWeight attributes
  | [] => by simp [attributePlaces, attributesWeight]
  | (name, value) :: rest => by
    have hv := length_valuePlaces value
    have hr := length_attributePlaces rest
    simp only [attributePlaces, attributesWeight, List.length_append]
    omega

lemma length_valuePlaces : ∀ value : AttributeValue Node,
    (valuePlaces value).length = valueWeight value
  | .node node => by
    have hn := length_nodePlaces node
    simpa [valuePlaces, valueWeight] using hn
  | .string _ | .number _ | .null | .boolean _ | .reference _ | .object _ | .unevaluable
  | .unsupported => by simp [valuePlaces, valueWeight]

lemma length_childPlaces : ∀ children : Option (List Node),
    (childPlaces children).length = childrenWeight children
  | none => by simp [childPlaces, childrenWeight]
  | some nodes => by
    have hn := length_nodesPlaces nodes
    simpa [childPlaces, childrenWeight] using hn

lemma length_nodesPlaces : ∀ nodes : List Node, (nodesPlaces nodes).length = nodesWeight nodes
  | [] => by simp [nodesPlaces, nodesWeight]
  | node :: rest => by
    have hn := length_nodePlaces node
    have hr := length_nodesPlaces rest
    simp only [nodesPlaces, nodesWeight, List.length_append]
    omega

end

lemma self_mem_nodePlaces (node : Node) : node ∈ nodePlaces node := by
  obtain ⟨component, attributes, children, key⟩ := node
  rw [nodePlaces]
  exact List.mem_cons_self

lemma mem_attributePlaces {attributes : List Attribute} {a : String} {value : AttributeValue Node}
    (h : (a, value) ∈ attributes) {sub : Node} (hs : sub ∈ valuePlaces value) :
    sub ∈ attributePlaces attributes := by
  induction attributes with
  | nil => exact absurd h List.not_mem_nil
  | cons first rest ih =>
    obtain ⟨name, other⟩ := first
    rw [attributePlaces]
    rcases List.mem_cons.mp h with he | hm
    · obtain ⟨rfl, rfl⟩ := Prod.mk.inj he
      exact List.mem_append_left _ hs
    · exact List.mem_append_right _ (ih hm)

lemma mem_nodesPlaces {nodes : List Node} {sub : Node} (h : sub ∈ nodes) :
    sub ∈ nodesPlaces nodes := by
  induction nodes with
  | nil => exact absurd h List.not_mem_nil
  | cons node rest ih =>
    rw [nodesPlaces]
    rcases List.mem_cons.mp h with rfl | hm
    · exact List.mem_append_left _ (self_mem_nodePlaces _)
    · exact List.mem_append_right _ (ih hm)

lemma mem_nodePlaces_of_holds {node sub : Node} (h : Holds node sub) : sub ∈ nodePlaces node := by
  obtain ⟨component, attributes, children, key⟩ := node
  rw [nodePlaces]
  apply List.mem_cons_of_mem
  rcases h with ⟨a, ha⟩ | ⟨nodes, hc, hs⟩
  · have hv : sub ∈ valuePlaces (.node sub) := self_mem_nodePlaces sub
    exact List.mem_append_left _ (mem_attributePlaces ha hv)
  · have hc : children = some nodes := hc
    subst hc
    exact List.mem_append_right _ (mem_nodesPlaces hs)

mutual

lemma holds_nodePlaces {x y : Node} (h : Holds x y) :
    ∀ node : Node, x ∈ nodePlaces node → y ∈ nodePlaces node
  | ⟨component, attributes, children, key⟩, hx => by
    rw [nodePlaces] at hx
    rcases List.mem_cons.mp hx with rfl | hx
    · exact mem_nodePlaces_of_holds h
    · rw [nodePlaces]
      apply List.mem_cons_of_mem
      rcases List.mem_append.mp hx with hx | hx
      · exact List.mem_append_left _ (holds_attributePlaces h attributes hx)
      · exact List.mem_append_right _ (holds_childPlaces h children hx)

lemma holds_attributePlaces {x y : Node} (h : Holds x y) :
    ∀ attributes : List (String × AttributeValue Node),
      x ∈ attributePlaces attributes → y ∈ attributePlaces attributes
  | [], hx => by simp [attributePlaces] at hx
  | (name, value) :: rest, hx => by
    rw [attributePlaces] at hx ⊢
    rcases List.mem_append.mp hx with hx | hx
    · exact List.mem_append_left _ (holds_valuePlaces h value hx)
    · exact List.mem_append_right _ (holds_attributePlaces h rest hx)

lemma holds_valuePlaces {x y : Node} (h : Holds x y) :
    ∀ value : AttributeValue Node, x ∈ valuePlaces value → y ∈ valuePlaces value
  | .node node, hx => by
    rw [valuePlaces] at hx ⊢
    exact holds_nodePlaces h node hx
  | .string _, hx | .number _, hx | .null, hx | .boolean _, hx | .reference _, hx | .object _, hx
  | .unevaluable, hx | .unsupported, hx => by simp [valuePlaces] at hx

lemma holds_childPlaces {x y : Node} (h : Holds x y) :
    ∀ children : Option (List Node), x ∈ childPlaces children → y ∈ childPlaces children
  | none, hx => by simp [childPlaces] at hx
  | some nodes, hx => by
    rw [childPlaces] at hx ⊢
    exact holds_nodesPlaces h nodes hx

lemma holds_nodesPlaces {x y : Node} (h : Holds x y) :
    ∀ nodes : List Node, x ∈ nodesPlaces nodes → y ∈ nodesPlaces nodes
  | [], hx => by simp [nodesPlaces] at hx
  | node :: rest, hx => by
    rw [nodesPlaces] at hx ⊢
    rcases List.mem_append.mp hx with hx | hx
    · exact List.mem_append_left _ (holds_nodePlaces h node hx)
    · exact List.mem_append_right _ (holds_nodesPlaces h rest hx)

end

end Held

section Written

lemma childrenKeyOf_mem (members : Json.Members) :
    Node.childrenKeyOf members ∈ Node.childrenKeys := by
  rw [Node.childrenKeyOf, Node.firstOf, Node.childrenKeys]
  cases hs : Fields.get? members "$" with
  | some value => simp [hs]
  | none => cases hl : Fields.get? members "children" <;> simp [hs, hl]

lemma isReserved_childrenKeyOf (members : Json.Members) :
    Node.isReserved (Node.childrenKeyOf members) = true := by
  simp [Node.isReserved, childrenKeyOf_mem]

lemma valueWeight_plainValue (value : Json) : valueWeight (Node.plainValue value) = 0 := by
  cases value <;> simp [Node.plainValue, valueWeight]

mutual

lemma nodeWeight_ofJson : ∀ value : Json, nodeWeight (Node.ofJson value) ≤ Json.weight value
  | .object members => by
    have hm := membersWeight_ge (isReserved_childrenKeyOf members) members
    simp only [Node.ofJson, Node.assemble, nodeWeight, Json.weight]
    omega
  | .null | .bool _ | .number _ | .string _ | .array _ => by
    simp [Node.ofJson, Node.empty, nodeWeight, attributesWeight, childrenWeight, Json.weight]

lemma valueWeight_componentValue : ∀ value : Json,
    valueWeight (Node.componentValue value) ≤ Json.weight value
  | .object members => by
    have hm := membersWeight_ge (isReserved_childrenKeyOf members) members
    simp only [Node.componentValue, Node.assemble, valueWeight, nodeWeight, Json.weight]
    omega
  | .null | .bool _ | .number _ | .string _ | .array _ => by
    simp [Node.componentValue, valueWeight]

lemma membersWeight_ge {key : String} (hk : Node.isReserved key = true) :
    ∀ members : List (String × Json),
      attributesWeight (Node.attributesOf members) + childrenWeight (Node.childrenAt key members) ≤
        Json.membersWeight members
  | [] => by simp [Node.attributesOf, Node.childrenAt, attributesWeight, childrenWeight]
  | (name, value) :: rest => by
    have hr := membersWeight_ge hk rest
    have hv := valueWeight_componentValue value
    have hn := childrenWeight_nodes? value
    rw [Node.attributesOf, Node.childrenAt, Json.membersWeight]
    by_cases he : name = key
    · subst he
      simp only [hk, if_true]
      omega
    · rw [if_neg he]
      split
      · omega
      · split
        · rw [attributesWeight]
          omega
        · have hp := valueWeight_plainValue value
          rw [attributesWeight]
          omega

lemma childrenWeight_nodes? : ∀ value : Json,
    childrenWeight (Node.nodes? value) ≤ Json.weight value
  | .array ⟨items⟩ => by
    have hi := nodesWeight_ofItems items
    simp only [Node.nodes?, childrenWeight, Json.weight]
    omega
  | .null | .bool _ | .number _ | .string _ | .object _ => by
    simp [Node.nodes?, childrenWeight]

lemma nodesWeight_ofItems : ∀ items : List Json,
    nodesWeight (Node.ofItems items) ≤ Json.itemsWeight items
  | [] => by simp [Node.ofItems, nodesWeight]
  | item :: rest => by
    have hi := nodeWeight_ofJson item
    have hr := nodesWeight_ofItems rest
    simp only [Node.ofItems, nodesWeight, Json.itemsWeight]
    omega

end

lemma valueWeight_classify (name : String) (value : Json) :
    valueWeight (Node.classify name value) ≤ Json.weight value := by
  rw [Node.classify]
  split
  · exact valueWeight_componentValue value
  · rw [valueWeight_plainValue]
    exact Nat.zero_le _

end Written

section Defaults

def defaultAttributes (defaults : Json.Members) : List Attribute :=
  defaults.map fun d => (d.1, Node.classify d.1 d.2)

def defaultPlaces : FlatRegistry → List Node
  | [] => []
  | (_, component) :: rest =>
    attributePlaces (defaultAttributes component.defaults) ++ defaultPlaces rest

lemma mem_mergedAttributes {node : Node} {defaults : Json.Members} {a : Attribute}
    (h : a ∈ node.mergedAttributes defaults) :
    a ∈ node.attributes ∨ a ∈ defaultAttributes defaults := by
  rcases List.mem_append.mp h with h | h
  · exact Or.inl h
  · obtain ⟨d, hd, rfl⟩ := List.mem_map.mp h
    exact Or.inr (List.mem_map_of_mem (List.mem_of_mem_filter hd))

lemma attributesWeight_defaultAttributes (defaults : Json.Members) :
    attributesWeight (defaultAttributes defaults) ≤ Json.membersWeight defaults := by
  induction defaults with
  | nil => simp [defaultAttributes, attributesWeight]
  | cons d rest ih =>
    obtain ⟨name, value⟩ := d
    have hw := valueWeight_classify name value
    have hs : defaultAttributes ((name, value) :: rest) =
        (name, Node.classify name value) :: defaultAttributes rest := rfl
    rw [hs, attributesWeight, Json.membersWeight]
    omega

lemma length_defaultPlaces (registry : FlatRegistry) :
    (defaultPlaces registry).length ≤ defaultsWeight registry := by
  induction registry with
  | nil => simp [defaultPlaces]
  | cons entry rest ih =>
    obtain ⟨name, component⟩ := entry
    have hl := length_attributePlaces (defaultAttributes component.defaults)
    have hw := attributesWeight_defaultAttributes component.defaults
    rw [defaultPlaces, defaultsWeight, List.length_append]
    omega

lemma mem_defaultPlaces {registry : FlatRegistry} {name : String} {component : Component}
    (h : (name, component) ∈ registry) {a : String} {sub : Node}
    (ha : (a, .node sub) ∈ defaultAttributes component.defaults) : sub ∈ defaultPlaces registry := by
  have hs : sub ∈ valuePlaces (.node sub) := self_mem_nodePlaces sub
  induction registry with
  | nil => exact absurd h List.not_mem_nil
  | cons entry rest ih =>
    rw [defaultPlaces]
    rcases List.mem_cons.mp h with rfl | hm
    · exact List.mem_append_left _ (mem_attributePlaces ha hs)
    · exact List.mem_append_right _ (ih hm)

lemma holds_defaultPlaces {x y : Node} (h : Holds x y) {registry : FlatRegistry}
    (hx : x ∈ defaultPlaces registry) : y ∈ defaultPlaces registry := by
  induction registry with
  | nil => exact absurd hx List.not_mem_nil
  | cons entry rest ih =>
    rw [defaultPlaces] at hx ⊢
    rcases List.mem_append.mp hx with hx | hx
    · exact List.mem_append_left _ (holds_attributePlaces h _ hx)
    · exact List.mem_append_right _ (ih hx)

end Defaults

section Closure

variable (target : Target) (node : Node)

/-- Every node that compiling `node` comes to is one of these. -/
def places : List Node :=
  nodePlaces node ++ defaultPlaces target.registry

lemma length_places : (places target node).length < depthFor target node := by
  have hn := length_nodePlaces node
  have hd := length_defaultPlaces target.registry
  rw [places, depthFor, List.length_append]
  omega

variable {target node}

lemma mem_registry {name : String} {component : Component}
    (h : resolved? target node = some (name, component)) : (name, component) ∈ target.registry :=
  NameMap.mem_of_get? (resolved_eq_some.mp h).2

lemma holds_or_default {sub : Node} (h : Nests target node sub) :
    Holds node sub ∨ sub ∈ defaultPlaces target.registry := by
  cases hr : resolved? target node with
  | none => exact absurd h (not_nests hr sub)
  | some found =>
    obtain ⟨name, component⟩ := found
    rcases (nests_iff hr sub).mp h with ⟨a, ha⟩ | hc
    · rcases mem_mergedAttributes ha with ha | ha
      · exact Or.inl (Or.inl ⟨a, ha⟩)
      · exact Or.inr (mem_defaultPlaces (mem_registry hr) ha)
    · exact Or.inl (Or.inr hc)

lemma self_mem_places : node ∈ places target node :=
  List.mem_append_left _ (self_mem_nodePlaces node)

lemma places_closed {x y : Node} (hx : x ∈ places target node) (h : Nests target x y) :
    y ∈ places target node := by
  rcases holds_or_default h with hh | hd
  · rcases List.mem_append.mp hx with hx | hx
    · exact List.mem_append_left _ (holds_nodePlaces hh node hx)
    · exact List.mem_append_right _ (holds_defaultPlaces hh hx)
  · exact List.mem_append_right _ hd

lemma mem_places_of_reached {x n : Node} {route : List Turn} {path : Path}
    (hr : Reached target x route path n) (hx : x ∈ places target node) : n ∈ places target node := by
  induction hr with
  | root x => exact hx
  | inside hn _ ih => exact ih (places_closed hx ⟨_, _, hn⟩)

end Closure

end TreeMarkup.Markup
