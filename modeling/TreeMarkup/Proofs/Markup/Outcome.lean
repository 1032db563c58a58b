import TreeMarkup.Proofs.Markup.Aliasing
import TreeMarkup.Proofs.Markup.Trace

namespace TreeMarkup.Markup

open FlatTree

section Input

def NamesRoot (tree : Json.Members) (root : String) : Prop :=
  Fields.get? tree "_" = some (.string root) ∨
    Fields.get? tree "_" = none ∧ Fields.get? tree "component" = some (.string root)

inductive Malformed (registry : Registry) (aliases : Json) : Json → Prop
  | notAnObject {tree : Json} : (∀ members, tree ≠ .object members) → Malformed registry aliases tree
  | unnamedRoot {members : Json.Members} : (∀ root, ¬NamesRoot members root) →
      Malformed registry aliases (.object members)
  | registry {tree : Json} {e : RegistryError} : registry.flatten = .error e →
      Malformed registry aliases tree
  | tree {members : Json.Members} {e : PathError} : ofTree members = .error e →
      Malformed registry aliases (.object members)
  | aliases {tree : Json} {table : Json.Members} {e : PathError} : aliases = .object table →
      ofTree table = .error e → Malformed registry aliases tree

variable {registry : Registry} {aliases : Json} {members : Json.Members} {root : String}

lemma string?_eq_some {value : Json} {text : String} :
    value.string? = some text ↔ value = .string text := by
  cases value <;> simp [Json.string?]

lemma componentOf_eq_some : Node.componentOf members = some root ↔ NamesRoot members root := by
  rw [Node.componentOf, Node.firstOf, Node.componentKeys, NamesRoot]
  cases hu : Fields.get? members "_" with
  | some value => simp [hu, string?_eq_some]
  | none =>
    cases hc : Fields.get? members "component" with
    | some value => simp [hu, hc, string?_eq_some]
    | none => simp [hu, hc]

lemma flatForms_cases (members : Json.Members) (aliases : Json) :
    (∃ forms, flatForms members aliases = .ok forms) ∨
      ∃ e, flatForms members aliases = .error e ∧ (ofTree members = .error e ∨
        ∃ table, aliases = .object table ∧ ofTree table = .error e) := by
  cases ht : ofTree members with
  | error e => exact Or.inr ⟨e, by simp only [flatForms, ht], Or.inl rfl⟩
  | ok flat =>
    cases aliases with
    | object table =>
      cases ha : ofTree table with
      | error e => exact Or.inr ⟨e, by simp only [flatForms, ht, ha, Except.map],
          Or.inr ⟨table, rfl, ha⟩⟩
      | ok renames => exact Or.inl ⟨_, flatForms_object ht ha⟩
    | _ => exact Or.inl ⟨_, flatForms_of_not_object ht (by simp)⟩

lemma ofTree_table_of_flatForms {table : Json.Members} {flatTree renames : FlatTree}
    (h : flatForms members (.object table) = .ok (flatTree, renames)) :
    ∃ renames, ofTree table = .ok renames := by
  cases ha : ofTree table with
  | error e =>
    simp [flatForms, ofTree_of_flatForms h, ha, Except.map] at h
  | ok renames => exact ⟨renames, rfl⟩

lemma not_malformed_iff {tree : Json} : ¬Malformed registry aliases tree ↔
    ∃ members root flat flatTree renames, tree = .object members ∧ NamesRoot members root ∧
      registry.flatten = .ok flat ∧ flatForms members aliases = .ok (flatTree, renames) := by
  constructor
  · intro h
    cases tree with
    | object members =>
      cases hn : Node.componentOf members with
      | none =>
        refine absurd (.unnamedRoot fun root hr => ?_) h
        rw [← componentOf_eq_some, hn] at hr
        exact absurd hr (by simp)
      | some root =>
        cases hf : registry.flatten with
        | error e => exact absurd (.registry hf) h
        | ok flat =>
          rcases flatForms_cases members aliases with
            ⟨⟨flatTree, renames⟩, ha⟩ | ⟨e, _, he | ⟨table, ht, he⟩⟩
          · exact ⟨members, root, flat, flatTree, renames, rfl, componentOf_eq_some.mp hn, rfl, ha⟩
          · exact absurd (.tree he) h
          · exact absurd (.aliases ht he) h
    | _ => exact absurd (.notAnObject (by simp)) h
  · rintro ⟨members, root, flat, flatTree, renames, rfl, hn, hf, ha⟩ h
    have ht := ofTree_of_flatForms ha
    cases h with
    | notAnObject h => exact h members rfl
    | unnamedRoot h => exact h root hn
    | registry h => simp [hf] at h
    | tree h => simp [ht] at h
    | aliases h he =>
      obtain rfl := h
      obtain ⟨renames, hr⟩ := ofTree_table_of_flatForms ha
      simp [hr] at he

lemma Malformed.change_aliases {tree : Json} (hm : Malformed registry aliases tree)
    (h : ∀ table e, aliases = .object table → ofTree table ≠ .error e) (other : Json) :
    Malformed registry other tree := by
  cases hm with
  | notAnObject h => exact .notAnObject h
  | unnamedRoot h => exact .unnamedRoot h
  | registry h => exact .registry h
  | tree h => exact .tree h
  | aliases htable he => exact absurd he (h _ _ htable)

lemma malformed_table_iff {table : Json.Members} {renames : FlatTree} (h : ofTree table = .ok renames)
    (tree : Json) : Malformed registry (.object table) tree ↔ Malformed registry .null tree := by
  constructor
  · intro hm
    apply hm.change_aliases
    rintro other e hother he
    obtain rfl := Json.object.inj hother
    exact absurd (h.symm.trans he) (by simp)
  · intro hm
    apply hm.change_aliases
    intro other e hother
    exact absurd hother (by simp)

end Input

section Runs

variable {tree : Json} {registry : Registry} {aliases : Json} {ambient : Attributes}
  {options : Options} {members : Json.Members}

lemma build_of_aliasTree {root : String} (hn : Node.componentOf members = some root)
    {flat : FlatRegistry} (hf : registry.flatten = .ok flat) {binding : Binding}
    (hb : flat.bindRoot root ambient options.rootAdapter = binding) {aliased : Json.Members}
    {aliasLog : Log} (ha : aliasTree members aliases = .ok (aliased, aliasLog)) :
    build (.object members) registry aliases ambient options =
      (compile ⟨binding.registry, options⟩
        { Node.ofMembers aliased with component := some binding.root }).map
        fun compiled => ⟨binding.registry, compiled.markup,
          binding.diagnostics ++ compiled.diagnostics,
          .registryFlattened flat.length :: binding.log ++ aliasLog ++ compiled.log⟩ := by
  simp only [build, hn, hf, hb, compileBound, ha]

lemma compileBound_of_error {e : PathError} (h : flatForms members aliases = .error e)
    (binding : Binding) (log : Log) :
    compileBound members aliases options binding log = some (.rejected log (.aliases e)) := by
  simp only [compileBound, aliasTree, h]

-- Of several faults the one that is found first is the reason; each is a reason to reject.
lemma build_of_malformed (ambient : Attributes) (options : Options)
    (h : Malformed registry aliases tree) : ∃ log reason,
      build tree registry aliases ambient options = some (.rejected log reason) := by
  cases tree with
  | object members =>
    cases hn : Node.componentOf members with
    | none => exact ⟨[], .unnamedRoot, by simp only [build, hn]⟩
    | some root =>
      cases hf : registry.flatten with
      | error e => exact ⟨[], .registry e, by simp only [build, hn, hf]⟩
      | ok flat =>
        rcases flatForms_cases members aliases with ⟨⟨flatTree, renames⟩, ha⟩ | ⟨e, ha, _⟩
        · have hm := not_malformed_iff.mpr
            ⟨members, root, flat, flatTree, renames, rfl, componentOf_eq_some.mp hn, hf, ha⟩
          exact absurd h hm
        · simp only [build, hn, hf, compileBound_of_error ha]
          exact ⟨_, _, rfl⟩
  | _ => exact ⟨[], .notAnObject, rfl⟩

end Runs

section Compiled

variable {target : Target} {node : Node}

lemma compile_of_unresolved (h : resolved? target node = none) : ∃ log,
    compile target node = some ⟨"", [unresolved node.component []], log⟩ := by
  rw [compile_eq, depthFor]
  simp only [unfoldWithin, h, Option.map_some, Option.some.injEq]
  exact ⟨_, rfl⟩

lemma severity_diagnosticAt {path : Path} {s : Site} {d : Diagnostic}
    (h : s.diagnosticAt path = some d) : d.severity = .warning := by
  obtain ⟨route, steps, mark⟩ := s
  cases mark with
  | tag name => simp [Site.diagnosticAt] at h
  | _ =>
    obtain rfl := Option.some.inj h
    rfl

lemma severity_log {u : Unfolding} {level : Nat} {path : Path} {d : Diagnostic}
    (h : d ∈ (u.log level path).diagnostics) : d.severity = .warning := by
  rw [diagnostics_log] at h
  obtain ⟨s, _, hs⟩ := List.mem_filterMap.mp h
  exact severity_diagnosticAt hs

def tagged (name middle : String) (closes : Bool) : String :=
  "<" ++ name ++ middle ++ if closes then "</" ++ name ++ ">" else "/>"

lemma markup_tag (indent : String) (parts : List (String × Part Unfolding)) (key : String)
    (us : Option (List Unfolding)) : ∃ middle, ∀ (name : String),
      (Unfolding.tag name parts key us).markup indent 0 = tagged name middle us.isSome := by
  have hzero : repeated indent 0 = "" := rfl
  obtain ⟨attributes, ha⟩ := openingText_eq_append "" (repeated indent (0 + 1))
    (shown (parts.map fun p => Unfolding.partText indent (0 + 1) p.1 p.2))
  rw [String.empty_append] at ha
  cases us with
  | none =>
    refine ⟨attributes, fun name => ?_⟩
    rw [markup_childless, hzero, ha, closingText]
    rfl
  | some us =>
    refine ⟨attributes ++ ">" ++ String.join ((shown (us.map fun u => u.markup indent (0 + 1))).map
      fun c => "\n" ++ c) ++ "\n", fun name => ?_⟩
    rw [markup_children, hzero, ha, closingText, tagged]
    simp only [Option.isSome_some, if_true, String.append_empty, String.append_assoc]

lemma compile_of_resolved {name : String} {component : Component}
    (h : resolved? target node = some (name, component)) {compiled : Compiled}
    (hc : compile target node = some compiled) :
    (∃ rest, compiled.markup = "<" ++ name ++ rest) ∧
      ∀ d ∈ compiled.diagnostics, d.severity = .warning := by
  rw [compile_eq, depthFor] at hc
  obtain ⟨u, hu, rfl⟩ := Option.map_eq_some_iff.mp hc
  refine ⟨?_, fun d hd => severity_log hd⟩
  rcases unfoldWithin_cases hu with ⟨hn, _⟩ | ⟨other, another, parts, us, hr, _, _, rfl⟩
  · exact absurd (hn.symm.trans h) (by simp)
  · obtain ⟨rfl, rfl⟩ := resolved_unique h hr
    obtain ⟨middle, hm⟩ := markup_tag target.options.indent parts node.childrenKey us
    have hstart := hm name
    rw [tagged, String.append_assoc] at hstart
    exact ⟨_, hstart⟩

end Compiled

section Bound

variable {flat : FlatRegistry} {root adapter : String}

lemma bindRoot_of_unregistered (ambient : Attributes) (adapter : String)
    (h : NameMap.get? flat root = none) :
    flat.bindRoot root ambient adapter = ⟨flat, root, [], [.rootMissing root]⟩ := by
  simp only [FlatRegistry.bindRoot, h]

lemma bindRoot_of_registered (ambient : Attributes) (adapter : String) {component : Component}
    (h : NameMap.get? flat root = some component) : ∃ log, flat.bindRoot root ambient adapter =
      ⟨NameMap.insert adapter (.adapter root component ambient) flat, adapter,
        Binding.collisions flat adapter, log⟩ := by
  simp only [FlatRegistry.bindRoot, h]
  exact ⟨_, rfl⟩

lemma resolved_adapter (component : Component) (options : Options) (node : Node) :
    resolved? ⟨NameMap.insert adapter component flat, options⟩
      { node with component := some adapter } = some (adapter, component) := by
  simp [resolved?, NameMap.get?_insert]

lemma severity_collisions {d : Diagnostic} (h : d ∈ Binding.collisions flat adapter) :
    d.severity = .warning := by
  rw [Binding.collisions] at h
  split at h
  · obtain rfl := List.mem_singleton.mp h
    rfl
  · exact absurd h List.not_mem_nil

end Bound

/-- Input is malformed and rejected, or names a root that is not registered and is reported, or has markup
that starts with the tag of the adapter. The root is the one that the tree names before aliases move
anything, and the targets of aliases make no input malformed. -/
theorem build_outcomes (tree : Json) (registry : Registry) (aliases : Json) (ambient : Attributes)
    (options : Options) :
    (Malformed registry aliases tree → ∃ built d,
      build tree registry aliases ambient options = some built ∧ built.markup = "" ∧
      built.registry = [] ∧ built.diagnostics = [d] ∧ d.severity = .error ∧
      d.kind = .malformedInput) ∧
    (¬Malformed registry aliases tree → ∃ members root flat, tree = .object members ∧
      NamesRoot members root ∧ registry.flatten = .ok flat ∧
      (NameMap.get? flat root = none → ∃ built,
        build tree registry aliases ambient options = some built ∧ built.markup = "" ∧
        built.registry = flat ∧ built.diagnostics = [⟨.warning, .unresolvedComponent,
          "Unable to find definition of `" ++ root ++ "`; ignored", some ""⟩]) ∧
      ∀ component, NameMap.get? flat root = some component → ∀ built,
        build tree registry aliases ambient options = some built →
        (∃ rest, built.markup = "<" ++ options.rootAdapter ++ rest) ∧
        (∀ name, NameMap.get? built.registry name = if options.rootAdapter = name then
          some (.adapter root component ambient) else NameMap.get? flat name) ∧
        built.registry =
          NameMap.insert options.rootAdapter (.adapter root component ambient) flat ∧
        ∀ d ∈ built.diagnostics, d.severity ≠ .error) ∧
    ∀ table renames, ofTree table = .ok renames →
      (Malformed registry (.object table) tree ↔ Malformed registry .null tree) := by
  refine ⟨?_, ?_, fun table renames h => malformed_table_iff h tree⟩
  · intro hm
    obtain ⟨log, reason, hb⟩ := build_of_malformed ambient options hm
    exact ⟨_, _, hb, rfl, rfl, rfl, rfl, rfl⟩
  · intro hm
    obtain ⟨members, root, flat, flatTree, renames, rfl, hn, hf, ha⟩ := not_malformed_iff.mp hm
    obtain ⟨aliased, aliasLog, ht⟩ := aliasTree_ok ha
    have hcomponent := componentOf_eq_some.mpr hn
    refine ⟨members, root, flat, rfl, hn, hf, ?_, ?_⟩
    · intro hg
      have hbind := bindRoot_of_unregistered ambient options.rootAdapter hg
      have hb := build_of_aliasTree hcomponent hf hbind ht
      obtain ⟨log, hc⟩ := @compile_of_unresolved ⟨flat, options⟩
        { Node.ofMembers aliased with component := some root } (by simp [resolved?, hg])
      rw [hc] at hb
      exact ⟨_, hb, rfl, rfl, rfl⟩
    · intro component hg built hbuilt
      obtain ⟨log, hbind⟩ := bindRoot_of_registered ambient options.rootAdapter hg
      rw [build_of_aliasTree hcomponent hf hbind ht] at hbuilt
      obtain ⟨compiled, hc, rfl⟩ := Option.map_eq_some_iff.mp hbuilt
      obtain ⟨hmarkup, hseverity⟩ := compile_of_resolved (resolved_adapter _ options _) hc
      refine ⟨hmarkup, fun name => NameMap.get?_insert _ _ flat name, rfl, ?_⟩
      intro d hd
      have hw : d.severity = .warning := by
        rcases List.mem_append.mp hd with hd | hd
        · exact severity_collisions hd
        · exact hseverity d hd
      simp [hw]

section Card

def cardRegistry : Registry :=
  [("Card", .component (.host "Card" []))]

def card : Json.Members :=
  [("_", .string "Card"), ("title", .string "One")]

def cardTable : Json :=
  .object [("_", .string "title"), ("title", .string "parts[1]")]

lemma wellFormed_card : ¬Malformed cardRegistry cardTable (.object card) := by
  have hn : NamesRoot card "Card" := Or.inl rfl
  exact not_malformed_iff.mpr ⟨card, "Card", _, _, _, rfl, hn, rfl, rfl⟩

lemma build_card : (build (.object card) cardRegistry cardTable [] Options.default).isSome := by
  decide +kernel

end Card

theorem build_outcomes_card : ¬Malformed cardRegistry cardTable (.object card) ∧ ∃ built,
    build (.object card) cardRegistry cardTable [] Options.default = some built ∧
    (∃ rest, built.markup = "<" ++ rootAdapterName ++ rest) ∧
    ∀ d ∈ built.diagnostics, d.severity ≠ .error := by
  obtain ⟨built, hb⟩ := Option.isSome_iff_exists.mp build_card
  obtain ⟨_, hwell, _⟩ :=
    build_outcomes (.object card) cardRegistry cardTable [] Options.default
  obtain ⟨members, root, flat, htree, hn, hf, _, hmarkup⟩ := hwell wellFormed_card
  obtain rfl := Json.object.inj htree
  obtain rfl : "Card" = root := Option.some.inj (componentOf_eq_some.mpr hn)
  obtain rfl := Except.ok.inj hf
  obtain ⟨hstart, _, _, hd⟩ := hmarkup _ rfl built hb
  exact ⟨wellFormed_card, built, hb, hstart, hd⟩

end TreeMarkup.Markup
