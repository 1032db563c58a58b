import TreeMarkup.Proofs.Markup.Diagnostics
import TreeMarkup.Proofs.Markup.Surface

namespace TreeMarkup.Markup

def Extends (flat larger : FlatRegistry) : Prop :=
  ∀ name component, NameMap.get? flat name = some component →
    ∃ another, NameMap.get? larger name = some another ∧ another.defaults = component.defaults

lemma Extends.contains {flat larger : FlatRegistry} (h : Extends flat larger) {name : String}
    (hc : NameMap.contains flat name = true) : NameMap.contains larger name = true := by
  obtain ⟨component, hg⟩ := Option.isSome_iff_exists.mp hc
  obtain ⟨another, ho, _⟩ := h name component hg
  rw [NameMap.contains, ho, Option.isSome_some]

def Spotless (target : Target) (node : Node) : Prop :=
  ∀ s, Marks target node s → ∃ name, s.mark = .tag name

section Spotless

variable {target : Target} {node : Node}

lemma Spotless.inside (h : Spotless target node) {sub : Node} (hn : Nests target node sub) :
    Spotless target sub := by
  obtain ⟨turn, steps, hn⟩ := hn
  intro s hs
  exact h (s.under turn steps) (hs.inside hn)

lemma Spotless.resolved (h : Spotless target node) :
    ∃ name component, resolved? target node = some (name, component) := by
  cases hr : resolved? target node with
  | some found => exact ⟨found.1, found.2, rfl⟩
  | none =>
    obtain ⟨name, hm⟩ := h _ (.own (.unresolved hr))
    exact absurd hm (by simp)

lemma Spotless.contains (h : Spotless target node) {name : String} {component : Component}
    (hr : resolved? target node = some (name, component)) {a reference : String}
    (ha : (a, .reference reference) ∈ node.mergedAttributes component.defaults) :
    NameMap.contains target.registry reference = true := by
  obtain ⟨i, hi⟩ := List.getElem?_of_mem ha
  cases hc : NameMap.contains target.registry reference with
  | true => rfl
  | false =>
    obtain ⟨tag, hm⟩ := h _ (.own (.unevaluable hr hi hc))
    exact absurd hm (by simp)

lemma spotless_of_compile {compiled : Compiled} (hc : compile target node = some compiled)
    (hd : compiled.diagnostics = []) : Spotless target node := by
  rw [compile_eq] at hc
  obtain ⟨u, hu, rfl⟩ := Option.map_eq_some_iff.mp hc
  rw [diagnostics_log, List.filterMap_eq_nil_iff] at hd
  intro s hs
  have hnone := hd s ((traceMarks_unfoldWithin target _ node u hu s).mpr hs)
  obtain ⟨route, path, mark⟩ := s
  cases mark with
  | tag name => exact ⟨name, rfl⟩
  | unresolved _ | unevaluable _ => exact absurd hnone (by simp [Site.diagnosticAt])

end Spotless

section Extension

variable {flat larger : FlatRegistry} {options : Options} {node : Node}

lemma Extends.resolved (h : Extends flat larger) {name : String} {component : Component}
    (hr : resolved? ⟨flat, options⟩ node = some (name, component)) :
    ∃ another, resolved? ⟨larger, options⟩ node = some (name, another) ∧
      another.defaults = component.defaults := by
  obtain ⟨hn, hg⟩ := resolved_eq_some.mp hr
  obtain ⟨another, ho, hd⟩ := h name component hg
  exact ⟨another, resolved_eq_some.mpr ⟨hn, ho⟩, hd⟩

lemma Extends.unfoldWithin (h : Extends flat larger) (hs : Spotless ⟨flat, options⟩ node)
    (depth : Nat) :
    unfoldWithin ⟨larger, options⟩ depth node = unfoldWithin ⟨flat, options⟩ depth node := by
  induction depth generalizing node with
  | zero => rfl
  | succ depth ih =>
    obtain ⟨name, component, hr⟩ := hs.resolved
    obtain ⟨another, ho, hd⟩ := h.resolved hr
    -- Each look-up has succeeded in the smaller registry, so it has the same answer in the larger one.
    obtain ⟨hattributes, hchildren⟩ := unfold_inside_congr ⟨larger, options⟩ hr
      (fun a reference ha => (h.contains (hs.contains hr ha)).trans (hs.contains hr ha).symm)
      fun sub hn => ih (hs.inside hn)
    rw [Markup.unfoldWithin, Markup.unfoldWithin]
    simp only [hr, ho, hd, hattributes, hchildren]

end Extension

/-- What compiles without a diagnostic compiles to the same against every registry that extends this one;
and registries with the same names and defaults cannot be told apart by compiling at all. -/
theorem compile_of_extends (flat other : FlatRegistry) (options : Options) (node : Node) :
    (Extends flat other → ∀ compiled, compile ⟨flat, options⟩ node = some compiled →
      compiled.diagnostics = [] → compile ⟨other, options⟩ node = some compiled) ∧
    (SameSurface flat other → compile ⟨other, options⟩ node = compile ⟨flat, options⟩ node) := by
  refine ⟨?_, fun h => h.compile options node⟩
  intro h compiled hc hd
  have hs := spotless_of_compile hc hd
  rw [compile_eq] at hc
  obtain ⟨u, hu, rfl⟩ := Option.map_eq_some_iff.mp hc
  exact compile_of_unfoldWithin ((h.unfoldWithin hs _).trans hu)

section Attic

def attic : Json :=
  .object [("_", .string "Box"), ("Lead", .string "Star"),
    ("$", .array #[.object [("_", .string "Star")], .object [("_", .string "Box")]])]

def atticRegistry : FlatRegistry :=
  [("Box", .adapter "Box" (.host "Crate"
      [("Icon", .object [("_", .string "Star")]), ("gap", .number (.whole 4))])
        [("theme", .string "dark")]),
    ("None", .host "None" [("gap", .null)]), ("Star", .host "Star" [])]

def crate : Component :=
  ⟨[("Icon", .object [("_", .string "Star")]), ("gap", .number (.whole 4))],
    fun _ => ⟨"Crate", []⟩, []⟩

def atticSurface : FlatRegistry :=
  [("Box", crate), ("Star", .adapter "Star" (.host "Sun" []) [("theme", .string "dark")])]

lemma diagnostics_attic :
    (compile panelTarget (Node.ofJson attic)).map (·.diagnostics) = some [] := by
  decide +kernel

lemma sameSurface_attic : SameSurface panelRegistry atticSurface := by
  intro name
  simp only [panelRegistry, atticSurface, NameMap.get?_cons, NameMap.get?_nil]
  split
  · rfl
  · split <;> rfl

lemma extends_attic : Extends panelRegistry atticRegistry := by
  intro name component hg
  simp only [panelRegistry, NameMap.get?_cons, NameMap.get?_nil] at hg
  split at hg
  · next hn =>
    subst hn
    obtain rfl := Option.some.inj hg
    exact ⟨_, rfl, rfl⟩
  · split at hg
    · next hn =>
      subst hn
      obtain rfl := Option.some.inj hg
      exact ⟨_, rfl, rfl⟩
    · exact absurd hg (by simp)

end Attic

theorem compile_of_extends_attic : Extends panelRegistry atticRegistry ∧
    SameSurface panelRegistry atticSurface ∧ ∃ compiled,
      compile panelTarget (Node.ofJson attic) = some compiled ∧ compiled.diagnostics = [] ∧
      compile ⟨atticRegistry, panelTarget.options⟩ (Node.ofJson attic) = some compiled ∧
      compile ⟨atticSurface, panelTarget.options⟩ (Node.ofJson attic) = some compiled := by
  obtain ⟨compiled, hc, hd⟩ := Option.map_eq_some_iff.mp diagnostics_attic
  have hextends := (compile_of_extends panelRegistry atticRegistry panelTarget.options
    (Node.ofJson attic)).1 extends_attic compiled hc hd
  have hsurface := (compile_of_extends panelRegistry atticSurface panelTarget.options
    (Node.ofJson attic)).2 sameSurface_attic
  exact ⟨extends_attic, sameSurface_attic, compiled, hc, hd, hextends, hsurface.trans hc⟩

end TreeMarkup.Markup
