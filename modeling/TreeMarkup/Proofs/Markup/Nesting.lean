import TreeMarkup.Proofs.Markup.Unfolding

namespace TreeMarkup.Markup

inductive Turn where
  | block (i : Nat)
  | child (i : Nat)
deriving DecidableEq

inductive Nested (target : Target) (node : Node) : Turn → Path → Node → Prop
  | block {name : String} {component : Component} {i : Nat} {a : String} {sub : Node} :
      resolved? target node = some (name, component) →
      (node.mergedAttributes component.defaults)[i]? = some (a, .node sub) →
      Nested target node (.block i) [.key a] sub
  | child {name : String} {component : Component} {nodes : List Node} {i : Nat} {sub : Node} :
      resolved? target node = some (name, component) →
      node.children = some nodes → nodes[i]? = some sub →
      Nested target node (.child i) [.key node.childrenKey, .index i] sub

def Nests (target : Target) (node sub : Node) : Prop :=
  ∃ turn steps, Nested target node turn steps sub

/-- The nodes that compiling a node comes to. -/
inductive Reached (target : Target) : Node → List Turn → Path → Node → Prop
  | root (node : Node) : Reached target node [] [] node
  | inside {node sub n : Node} {turn : Turn} {steps : Path} {route : List Turn} {path : Path} :
      Nested target node turn steps sub → Reached target sub route path n →
      Reached target node (turn :: route) (steps ++ path) n

section Steps

variable {target : Target} {node : Node} {name : String} {component : Component}

lemma nests_iff (h : resolved? target node = some (name, component)) (sub : Node) :
    Nests target node sub ↔ (∃ a, (a, .node sub) ∈ node.mergedAttributes component.defaults) ∨
      ∃ nodes, node.children = some nodes ∧ sub ∈ nodes := by
  constructor
  · rintro ⟨turn, steps, hn⟩
    cases hn with
    | block hr ha =>
      obtain ⟨rfl, rfl⟩ := resolved_unique h hr
      exact Or.inl ⟨_, List.mem_of_getElem? ha⟩
    | child _ hc hi => exact Or.inr ⟨_, hc, List.mem_of_getElem? hi⟩
  · rintro (⟨a, hm⟩ | ⟨nodes, hc, hm⟩)
    · obtain ⟨i, hi⟩ := List.getElem?_of_mem hm
      exact ⟨_, _, .block h hi⟩
    · obtain ⟨i, hi⟩ := List.getElem?_of_mem hm
      exact ⟨_, _, .child h hc hi⟩

lemma not_nests (h : resolved? target node = none) (sub : Node) : ¬Nests target node sub := by
  rintro ⟨turn, steps, hn⟩
  cases hn with
  | block hr _ => simp [h] at hr
  | child hr _ _ => simp [h] at hr

end Steps

section Missing

variable {target : Target} {expand : Node → Option Unfolding}

lemma partOf_eq_none {value : AttributeValue Node} :
    partOf target expand value = none ↔ ∃ sub, value = .node sub ∧ expand sub = none := by
  cases value with
  | node sub => simp [partOf]
  | boolean b => cases b <;> simp [partOf]
  | _ => simp [partOf]

lemma unfoldAttributes_eq_none {attributes : List Attribute} :
    unfoldAttributes target expand attributes = none ↔
      ∃ a sub, (a, .node sub) ∈ attributes ∧ expand sub = none := by
  induction attributes with
  | nil => simp [unfoldAttributes]
  | cons a rest ih =>
    obtain ⟨name, value⟩ := a
    cases hp : partOf target expand value with
    | none =>
      obtain ⟨sub, rfl, hu⟩ := partOf_eq_none.mp hp
      simp only [unfoldAttributes, hp, Option.bind_none, true_iff]
      exact ⟨name, sub, List.mem_cons_self, hu⟩
    | some part =>
      simp only [unfoldAttributes, hp, Option.bind_some, Option.map_eq_none_iff, ih]
      constructor
      · rintro ⟨a, sub, hm, hu⟩
        exact ⟨a, sub, List.mem_cons_of_mem _ hm, hu⟩
      · rintro ⟨a, sub, hm, hu⟩
        rcases List.mem_cons.mp hm with he | hm
        · obtain ⟨rfl, rfl⟩ := Prod.mk.inj he
          have hn : partOf target expand (.node sub) = none := partOf_eq_none.mpr ⟨sub, rfl, hu⟩
          rw [hp] at hn
          exact absurd hn (by simp)
        · exact ⟨a, sub, hm, hu⟩

lemma unfoldNodes_eq_none {nodes : List Node} :
    unfoldNodes expand nodes = none ↔ ∃ sub ∈ nodes, expand sub = none := by
  induction nodes with
  | nil => simp [unfoldNodes]
  | cons node rest ih =>
    cases hu : expand node with
    | none => simp [unfoldNodes, hu]
    | some u => simp [unfoldNodes, hu, ih]

lemma unfoldChildren_eq_none {node : Node} :
    unfoldChildren expand node.childNodes = none ↔
      ∃ nodes, node.children = some nodes ∧ ∃ sub ∈ nodes, expand sub = none := by
  cases hc : node.children with
  | none => simp [Node.childNodes, hc, unfoldChildren]
  | some nodes =>
    cases nodes with
    | nil => simp [Node.childNodes, hc, Option.filter, unfoldChildren]
    | cons n rest => simp [Node.childNodes, hc, Option.filter, unfoldChildren, unfoldNodes_eq_none]

end Missing

lemma unfoldWithin_succ_eq_none {target : Target} {depth : Nat} {node : Node} :
    unfoldWithin target (depth + 1) node = none ↔
      ∃ sub, Nests target node sub ∧ unfoldWithin target depth sub = none := by
  cases hr : resolved? target node with
  | none =>
    simp only [unfoldWithin, hr, reduceCtorEq, false_iff]
    rintro ⟨sub, hn, _⟩
    exact not_nests hr sub hn
  | some found =>
    obtain ⟨name, component⟩ := found
    have hm : unfoldWithin target (depth + 1) node = none ↔
        unfoldAttributes target (unfoldWithin target depth)
            (node.mergedAttributes component.defaults) = none ∨
          unfoldChildren (unfoldWithin target depth) node.childNodes = none := by
      cases ha : unfoldAttributes target (unfoldWithin target depth)
        (node.mergedAttributes component.defaults) <;> simp [unfoldWithin, hr, ha]
    rw [hm, unfoldAttributes_eq_none, unfoldChildren_eq_none]
    constructor
    · rintro (⟨a, sub, ha, hu⟩ | ⟨nodes, hc, sub, hs, hu⟩)
      · exact ⟨sub, (nests_iff hr sub).mpr (Or.inl ⟨a, ha⟩), hu⟩
      · exact ⟨sub, (nests_iff hr sub).mpr (Or.inr ⟨nodes, hc, hs⟩), hu⟩
    · rintro ⟨sub, hn, hu⟩
      rcases (nests_iff hr sub).mp hn with ⟨a, ha⟩ | ⟨nodes, hc, hs⟩
      · exact Or.inl ⟨a, sub, ha, hu⟩
      · exact Or.inr ⟨nodes, hc, sub, hs, hu⟩

end TreeMarkup.Markup
