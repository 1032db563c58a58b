import TreeMarkup.Proofs.Markup.Stability

namespace TreeMarkup.Markup

/-- The same names are registered, with the same defaults. -/
def SameSurface (flat other : FlatRegistry) : Prop :=
  ∀ name, (NameMap.get? other name).map Component.defaults =
    (NameMap.get? flat name).map Component.defaults

variable {flat other : FlatRegistry} {options : Options} {node : Node}

lemma SameSurface.symm (h : SameSurface flat other) : SameSurface other flat :=
  fun name => (h name).symm

lemma SameSurface.contains (h : SameSurface flat other) (name : String) :
    NameMap.contains other name = NameMap.contains flat name := by
  have hs := congrArg Option.isSome (h name)
  rwa [Option.isSome_map, Option.isSome_map] at hs

lemma SameSurface.unresolved (h : SameSurface flat other)
    (hr : resolved? ⟨flat, options⟩ node = none) : resolved? ⟨other, options⟩ node = none := by
  cases hn : node.component with
  | none => simp [resolved?, hn]
  | some name =>
    have hs := h.contains name
    simp only [resolved?, hn, Option.bind_some, Option.map_eq_none_iff] at hr
    simpa [resolved?, hn, NameMap.contains, hr] using hs

lemma SameSurface.resolved (h : SameSurface flat other) {name : String} {component : Component}
    (hr : resolved? ⟨flat, options⟩ node = some (name, component)) :
    ∃ another, resolved? ⟨other, options⟩ node = some (name, another) ∧
      another.defaults = component.defaults := by
  obtain ⟨hn, hg⟩ := resolved_eq_some.mp hr
  have hs := h name
  rw [hg] at hs
  obtain ⟨another, ho, hd⟩ := Option.map_eq_some_iff.mp hs
  exact ⟨another, resolved_eq_some.mpr ⟨hn, ho⟩, hd⟩

lemma SameSurface.unfoldWithin (h : SameSurface flat other) (depth : Nat) (node : Node) :
    unfoldWithin ⟨other, options⟩ depth node = unfoldWithin ⟨flat, options⟩ depth node := by
  induction depth generalizing node with
  | zero => rfl
  | succ depth ih =>
    rw [Markup.unfoldWithin, Markup.unfoldWithin]
    cases hr : resolved? ⟨flat, options⟩ node with
    | none => simp only [h.unresolved hr]
    | some found =>
      obtain ⟨name, component⟩ := found
      obtain ⟨another, ho, hd⟩ := h.resolved hr
      have ha := @unfoldAttributes_congr ⟨flat, options⟩ ⟨other, options⟩ _ _
        (node.mergedAttributes component.defaults) (fun _ reference _ => h.contains reference)
        fun _ sub _ => ih sub
      have hc := @unfoldChildren_congr _ _ node fun _ _ sub _ => ih sub
      simp only [ho, hd, ha, hc]

lemma SameSurface.compile_some (h : SameSurface flat other) {compiled : Compiled}
    (hc : compile ⟨flat, options⟩ node = some compiled) :
    compile ⟨other, options⟩ node = some compiled := by
  rw [compile_eq] at hc
  obtain ⟨u, hu, rfl⟩ := Option.map_eq_some_iff.mp hc
  exact compile_of_unfoldWithin ((h.unfoldWithin _ node).trans hu)

theorem SameSurface.compile (h : SameSurface flat other) (options : Options) (node : Node) :
    compile ⟨other, options⟩ node = compile ⟨flat, options⟩ node := by
  cases hc : Markup.compile ⟨flat, options⟩ node with
  | some compiled => exact h.compile_some hc
  | none =>
    -- A result against the other registry would be one against this registry too.
    cases ho : Markup.compile ⟨other, options⟩ node with
    | none => rfl
    | some compiled => exact absurd (hc.symm.trans (h.symm.compile_some ho)) (by simp)

end TreeMarkup.Markup
