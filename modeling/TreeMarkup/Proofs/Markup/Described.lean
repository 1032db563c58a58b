import TreeMarkup.Proofs.Markup.Places

namespace TreeMarkup.Markup

/-- The node is what JSON describes, under any component. -/
def Described (node : Node) : Prop :=
  ∃ definition component, node = { Node.ofJson definition with component := component }

lemma described_ofJson (definition : Json) : Described (Node.ofJson definition) := by
  refine ⟨definition, (Node.ofJson definition).component, ?_⟩
  cases Node.ofJson definition
  rfl

lemma ofJson_of_classify {key : String} {value : Json} {sub : Node}
    (h : Node.classify key value = .node sub) : sub = Node.ofJson value := by
  rw [Node.classify] at h
  split at h
  · cases value with
    | object members =>
      simp only [Node.componentValue, AttributeValue.node.injEq] at h
      rw [← h, Node.ofJson]
    | _ => simp [Node.componentValue] at h
  · cases value <;> simp [Node.plainValue] at h

def classified (m : String × Json) : Attribute :=
  (m.1, Node.classify m.1 m.2)

lemma attributesOf_eq (members : List (String × Json)) :
    Node.attributesOf members = (members.filter fun m => !Node.isReserved m.1).map classified := by
  induction members with
  | nil => simp [Node.attributesOf]
  | cons m rest ih =>
    obtain ⟨name, value⟩ := m
    rw [Node.attributesOf, ih]
    cases hr : Node.isReserved name with
    | true => simp [hr]
    | false => cases hc : Node.isComponentName name <;> simp [hr, hc, classified, Node.classify]

lemma mem_attributesOf {members : List (String × Json)} {a : Attribute} :
    a ∈ Node.attributesOf members ↔ ∃ value, (a.1, value) ∈ members ∧
      Node.isReserved a.1 = false ∧ a.2 = Node.classify a.1 value := by
  rw [attributesOf_eq]
  constructor
  · intro h
    obtain ⟨m, hm, rfl⟩ := List.mem_map.mp h
    obtain ⟨hm, hr⟩ := List.mem_filter.mp hm
    exact ⟨m.2, hm, by simpa [classified] using hr, rfl⟩
  · rintro ⟨value, hm, hr, hv⟩
    refine List.mem_map.mpr ⟨(a.1, value), List.mem_filter.mpr ⟨hm, by simp [hr]⟩, ?_⟩
    rw [classified, ← hv]

lemma any_attributesOf (members : Json.Members) {name : String}
    (hr : Node.isReserved name = false) :
    ((Node.attributesOf members).any fun a => a.1 == name) = Fields.contains members name := by
  rw [Bool.eq_iff_iff, List.any_eq_true, Fields.contains_eq_true]
  constructor
  · rintro ⟨a, ha, he⟩
    obtain ⟨value, hm, _, _⟩ := mem_attributesOf.mp ha
    exact List.mem_map.mpr ⟨_, hm, beq_iff_eq.mp he⟩
  · intro hc
    obtain ⟨m, hm, rfl⟩ := List.mem_map.mp hc
    exact ⟨classified m, mem_attributesOf.mpr ⟨m.2, hm, hr, rfl⟩, beq_self_eq_true m.1⟩

lemma ofItems_eq_map (items : List Json) : Node.ofItems items = items.map Node.ofJson := by
  induction items with
  | nil => simp [Node.ofItems]
  | cons item rest ih => rw [Node.ofItems, ih, List.map_cons]

lemma childrenAt_eq (key : String) (members : List (String × Json)) :
    Node.childrenAt key members = (Fields.get? members key).bind Node.nodes? := by
  induction members with
  | nil => simp [Node.childrenAt, Fields.get?_nil]
  | cons m rest ih =>
    obtain ⟨name, value⟩ := m
    rw [Node.childrenAt, Fields.get?_cons, ih]
    split <;> rfl

lemma mem_childrenAt {key : String} {members : List (String × Json)} {nodes : List Node}
    (h : Node.childrenAt key members = some nodes) {sub : Node} (hs : sub ∈ nodes) :
    ∃ items, (key, Json.array ⟨items⟩) ∈ members ∧ ∃ item ∈ items, sub = Node.ofJson item := by
  rw [childrenAt_eq] at h
  obtain ⟨value, hg, hn⟩ := Option.bind_eq_some_iff.mp h
  cases value with
  | array items =>
    obtain ⟨items⟩ := items
    rw [Node.nodes?, ofItems_eq_map] at hn
    obtain rfl := Option.some.inj hn
    obtain ⟨item, hi, rfl⟩ := List.mem_map.mp hs
    exact ⟨items, Fields.mem_of_get? hg, item, hi, rfl⟩
  | _ => simp [Node.nodes?] at hn

variable {target : Target} {node : Node}

lemma Described.attributes (h : Described node) {defaults : Json.Members} {a : Attribute}
    (ha : a ∈ node.mergedAttributes defaults) : ∃ value, a.2 = Node.classify a.1 value := by
  rcases mem_mergedAttributes ha with ha | ha
  · obtain ⟨definition, component, rfl⟩ := h
    cases definition with
    | object members =>
      simp only [Node.ofJson, Node.assemble] at ha
      obtain ⟨value, _, _, hv⟩ := mem_attributesOf.mp ha
      exact ⟨value, hv⟩
    | _ => simp [Node.ofJson, Node.empty] at ha
  · obtain ⟨d, _, rfl⟩ := List.mem_map.mp ha
    exact ⟨d.2, rfl⟩

lemma Described.inside (h : Described node) {sub : Node} (hn : Nests target node sub) :
    Described sub := by
  cases hr : resolved? target node with
  | none => exact absurd hn (not_nests hr sub)
  | some found =>
    obtain ⟨name, component⟩ := found
    rcases (nests_iff hr sub).mp hn with ⟨a, ha⟩ | ⟨nodes, hc, hs⟩
    · obtain ⟨value, hv⟩ := h.attributes ha
      rw [ofJson_of_classify hv.symm]
      exact described_ofJson value
    · obtain ⟨definition, component, rfl⟩ := h
      cases definition with
      | object members =>
        simp only [Node.ofJson, Node.assemble] at hc
        obtain ⟨_, _, item, _, rfl⟩ := mem_childrenAt hc hs
        exact described_ofJson item
      | _ => simp [Node.ofJson, Node.empty] at hc

lemma Described.reached (h : Described node) {route : List Turn} {path : Path} {n : Node}
    (hr : Reached target node route path n) : Described n := by
  induction hr with
  | root node => exact h
  | inside hn _ ih => exact ih (h.inside ⟨_, _, hn⟩)

end TreeMarkup.Markup
