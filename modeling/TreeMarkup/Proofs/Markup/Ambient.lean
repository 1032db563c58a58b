import TreeMarkup.Proofs.Markup.Outcome
import TreeMarkup.Proofs.Markup.Surface

namespace TreeMarkup.Markup

structure AlikeBut (adapter : String) (built other : Compilation) : Prop where
  markup : built.markup = other.markup
  diagnostics : built.diagnostics = other.diagnostics
  log : built.log = other.log
  names : NameMap.names built.registry = NameMap.names other.registry
  entries : ∀ name, name ≠ adapter →
    NameMap.get? built.registry name = NameMap.get? other.registry name
  renders : ∀ name attributes, name ≠ adapter →
    built.registry.render name attributes = other.registry.render name attributes
  defaults : ∀ name, (NameMap.get? built.registry name).map Component.defaults =
    (NameMap.get? other.registry name).map Component.defaults

lemma AlikeBut.refl (adapter : String) (built : Compilation) : AlikeBut adapter built built :=
  ⟨rfl, rfl, rfl, rfl, fun _ _ => rfl, fun _ _ _ => rfl, fun _ => rfl⟩

section Insertion

variable {adapter : String} {component another : Component}

lemma sameSurface_insert (h : component.defaults = another.defaults) (flat : FlatRegistry) :
    SameSurface (NameMap.insert adapter component flat) (NameMap.insert adapter another flat) := by
  intro name
  rw [NameMap.get?_insert, NameMap.get?_insert]
  split
  · simp [h]
  · rfl

lemma alikeBut_insert (h : component.defaults = another.defaults) (flat : FlatRegistry)
    (markup : String) (diagnostics : List Diagnostic) (log : Log) :
    AlikeBut adapter ⟨NameMap.insert adapter component flat, markup, diagnostics, log⟩
      ⟨NameMap.insert adapter another flat, markup, diagnostics, log⟩ := by
  have hentries : ∀ name, name ≠ adapter →
      NameMap.get? (NameMap.insert adapter component flat) name =
        NameMap.get? (NameMap.insert adapter another flat) name := by
    intro name hn
    rw [NameMap.get?_insert_of_ne hn, NameMap.get?_insert_of_ne hn]
  refine ⟨rfl, rfl, rfl, NameMap.names_insert _ _ _ _, hentries, ?_, ?_⟩
  · intro name attributes hn
    simp only [FlatRegistry.render, hentries name hn]
  · exact sameSurface_insert h.symm flat

end Insertion

variable {members : Json.Members} {aliases : Json} {options : Options} {flat : FlatRegistry}

lemma compileBound_insert {adapter : String} {component another : Component}
    (h : component.defaults = another.defaults) (root : String) (diagnostics : List Diagnostic)
    (bindLog log : Log) :
    Option.Rel (AlikeBut adapter)
      (compileBound members aliases options
        ⟨NameMap.insert adapter component flat, root, diagnostics, bindLog⟩ log)
      (compileBound members aliases options
        ⟨NameMap.insert adapter another flat, root, diagnostics, bindLog⟩ log) := by
  rw [compileBound, compileBound]
  cases ha : aliasTree members aliases with
  | error e => exact .some (.refl _ _)
  | ok found =>
    obtain ⟨aliased, aliasLog⟩ := found
    simp only [(sameSurface_insert h flat).compile]
    cases compile ⟨NameMap.insert adapter component flat, options⟩
        { Node.ofMembers aliased with component := some root } with
    | none => exact .none
    | some compiled => exact .some (alikeBut_insert h flat _ _ _)

lemma optionRel_refl {α : Type} {r : α → α → Prop} (hr : ∀ a, r a a) (o : Option α) :
    Option.Rel r o o := by
  cases o with
  | none => exact .none
  | some a => exact .some (hr a)

/-- What building returns under two bags of ambient attributes can be told apart by rendering the adapter
only. -/
theorem build_ambient_unseen (tree : Json) (registry : Registry) (aliases : Json)
    (ambient other : Attributes) (options : Options) :
    Option.Rel (AlikeBut options.rootAdapter)
      (build tree registry aliases ambient options) (build tree registry aliases other options) := by
  have hrefl := optionRel_refl (AlikeBut.refl options.rootAdapter)
  cases tree with
  | object members =>
    cases hn : Node.componentOf members with
    | none =>
      simp only [build, hn]
      exact hrefl _
    | some root =>
      cases hf : registry.flatten with
      | error e =>
        simp only [build, hn, hf]
        exact hrefl _
      | ok flat =>
        cases hg : NameMap.get? flat root with
        | none =>
          simp only [build, hn, hf, FlatRegistry.bindRoot, hg]
          exact hrefl _
        | some component =>
          have hd : (Component.adapter root component ambient).defaults =
              (Component.adapter root component other).defaults := by
            rw [Component.defaults_adapter, Component.defaults_adapter]
          simp only [build, hn, hf, FlatRegistry.bindRoot, hg]
          exact compileBound_insert hd _ _ _ _
  | _ => exact hrefl _

end TreeMarkup.Markup
