import TreeMarkup.Proofs.Markup.Completion

namespace TreeMarkup.Markup

section Congruence

variable {target other : Target} {expand expand' : Node → Option Unfolding}

lemma partOf_congr {value : AttributeValue Node}
    (hr : ∀ component, value = .reference component →
      NameMap.contains other.registry component = NameMap.contains target.registry component)
    (hn : ∀ sub, value = .node sub → expand' sub = expand sub) :
    partOf other expand' value = partOf target expand value := by
  cases value with
  | reference component => simp only [partOf, hr component rfl]
  | node sub => simp only [partOf, hn sub rfl]
  | boolean b => cases b <;> rfl
  | _ => rfl

lemma unfoldAttributes_congr {attributes : List Attribute}
    (hr : ∀ a component, (a, .reference component) ∈ attributes →
      NameMap.contains other.registry component = NameMap.contains target.registry component)
    (hn : ∀ a sub, (a, .node sub) ∈ attributes → expand' sub = expand sub) :
    unfoldAttributes other expand' attributes = unfoldAttributes target expand attributes := by
  induction attributes with
  | nil => rfl
  | cons a rest ih =>
    obtain ⟨name, value⟩ := a
    have hp : partOf other expand' value = partOf target expand value := by
      apply partOf_congr
      · rintro component rfl
        exact hr name component List.mem_cons_self
      · rintro sub rfl
        exact hn name sub List.mem_cons_self
    have hi := ih (fun a component ha => hr a component (List.mem_cons_of_mem _ ha))
      fun a sub ha => hn a sub (List.mem_cons_of_mem _ ha)
    rw [unfoldAttributes, unfoldAttributes, hp, hi]

lemma unfoldNodes_congr {nodes : List Node} (h : ∀ sub ∈ nodes, expand' sub = expand sub) :
    unfoldNodes expand' nodes = unfoldNodes expand nodes := by
  induction nodes with
  | nil => rfl
  | cons node rest ih =>
    have hi := ih fun sub hs => h sub (List.mem_cons_of_mem _ hs)
    rw [unfoldNodes, unfoldNodes, h node List.mem_cons_self, hi]

lemma unfoldChildren_congr {node : Node}
    (h : ∀ nodes, node.children = some nodes → ∀ sub ∈ nodes, expand' sub = expand sub) :
    unfoldChildren expand' node.childNodes = unfoldChildren expand node.childNodes := by
  cases hn : node.childNodes with
  | none => rfl
  | some nodes =>
    rw [unfoldChildren, unfoldChildren,
      unfoldNodes_congr (h nodes (Option.eq_some_of_filter_eq_some hn))]

lemma unfold_inside_congr (other : Target) {node : Node} {name : String} {component : Component}
    (hr : resolved? target node = some (name, component))
    (href : ∀ a reference, (a, .reference reference) ∈ node.mergedAttributes component.defaults →
      NameMap.contains other.registry reference = NameMap.contains target.registry reference)
    (hn : ∀ sub, Nests target node sub → expand' sub = expand sub) :
    unfoldAttributes other expand' (node.mergedAttributes component.defaults) =
        unfoldAttributes target expand (node.mergedAttributes component.defaults) ∧
      unfoldChildren expand' node.childNodes = unfoldChildren expand node.childNodes := by
  constructor
  · apply unfoldAttributes_congr href
    intro a sub ha
    exact hn sub ((nests_iff hr sub).mpr (Or.inl ⟨a, ha⟩))
  · apply unfoldChildren_congr
    intro nodes hc sub hs
    exact hn sub ((nests_iff hr sub).mpr (Or.inr ⟨nodes, hc, hs⟩))

end Congruence

section Targets

variable {target other : Target} {node : Node}

structure Alike (target other : Target) (node : Node) : Prop where
  resolved : resolved? other node = resolved? target node
  references : ∀ name component, resolved? target node = some (name, component) →
    ∀ a reference, (a, .reference reference) ∈ node.mergedAttributes component.defaults →
      NameMap.contains other.registry reference = NameMap.contains target.registry reference

lemma Alike.refl (target : Target) (node : Node) : Alike target target node :=
  ⟨rfl, fun _ _ _ _ _ _ => rfl⟩

lemma Alike.unfoldWithin_succ (h : Alike target other node) {depth more : Nat}
    (hn : ∀ sub, Nests target node sub → unfoldWithin other more sub = unfoldWithin target depth sub) :
    unfoldWithin other (more + 1) node = unfoldWithin target (depth + 1) node := by
  rw [unfoldWithin, unfoldWithin, h.resolved]
  cases hr : resolved? target node with
  | none => rfl
  | some found =>
    obtain ⟨name, component⟩ := found
    obtain ⟨ha, hc⟩ := unfold_inside_congr other hr (h.references name component hr) hn
    simp only [ha, hc]

/-- Targets to which every node that is come to is the same unfold it to the same. -/
lemma unfoldWithin_congr {P : Node → Prop}
    (hinside : ∀ node, P node → ∀ sub, Nests target node sub → P sub)
    (halike : ∀ node, P node → Alike target other node) (h : P node) (depth : Nat) :
    unfoldWithin other depth node = unfoldWithin target depth node := by
  induction depth generalizing node with
  | zero => rfl
  | succ depth ih => exact (halike node h).unfoldWithin_succ fun sub hn => ih (hinside node h sub hn)

lemma unfoldWithin_add {depth : Nat} {u : Unfolding} (h : unfoldWithin target depth node = some u)
    (more : Nat) : unfoldWithin target (depth + more) node = some u := by
  induction depth generalizing node u with
  | zero => exact absurd h (by simp [unfoldWithin])
  | succ depth ih =>
    -- What unfolds holds only nodes that unfold one deeper, and on those more depth changes nothing.
    have hsub : ∀ sub, Nests target node sub →
        unfoldWithin target (depth + more) sub = unfoldWithin target depth sub := by
      intro sub hn
      cases hs : unfoldWithin target depth sub with
      | none =>
        have hnone := unfoldWithin_succ_eq_none.mpr ⟨sub, hn, hs⟩
        exact absurd (hnone.symm.trans h) (by simp)
      | some v => exact ih hs
    rw [Nat.add_right_comm, (Alike.refl target node).unfoldWithin_succ hsub, h]

lemma unfoldWithin_unique {depth more : Nat} {u v : Unfolding}
    (hu : unfoldWithin target depth node = some u) (hv : unfoldWithin target more node = some v) :
    u = v := by
  have hu' := unfoldWithin_add hu more
  have hv' := unfoldWithin_add hv depth
  rw [Nat.add_comm] at hv'
  exact Option.some.inj (hu'.symm.trans hv')

lemma unfold_of_unfoldWithin {depth : Nat} {u : Unfolding}
    (h : unfoldWithin target depth node = some u) : unfold target node = some u := by
  have hends : ¬Endless target node := fun he =>
    absurd ((unfoldWithin_of_endless he depth).symm.trans h) (by simp)
  obtain ⟨v, hv⟩ := Option.ne_none_iff_exists'.mp (mt unfoldWithin_depthFor.mp hends)
  rw [unfold, hv, unfoldWithin_unique hv h]

lemma compile_of_unfoldWithin {depth : Nat} {u : Unfolding}
    (h : unfoldWithin target depth node = some u) : compile target node =
      some ⟨u.markup target.options.indent 0, (u.log 0 []).diagnostics, u.log 0 []⟩ := by
  rw [compile_eq, ← unfold, unfold_of_unfoldWithin h, Option.map_some]

end Targets

end TreeMarkup.Markup
