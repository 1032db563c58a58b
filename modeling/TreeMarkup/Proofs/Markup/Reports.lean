import TreeMarkup.Proofs.Markup.Outcome

namespace TreeMarkup.Markup

open FlatTree

/-- The root is bound under a name that is taken, and then the tree or the table has no flat form. -/
def RejectedAfterCollision (tree : Json) (registry : Registry) (aliases : Json)
    (options : Options) : Prop :=
  ∃ members root flat, tree = .object members ∧ NamesRoot members root ∧
    registry.flatten = .ok flat ∧ NameMap.contains flat root = true ∧
    NameMap.contains flat options.rootAdapter = true ∧
    ∃ e, ofTree members = .error e ∨ ∃ table, aliases = .object table ∧ ofTree table = .error e

section Logs

variable {members : Json.Members} {aliases : Json} {options : Options}

lemma diagnostics_reported (ds : List Diagnostic) : Log.diagnostics (ds.map .reported) = ds := by
  rw [Log.diagnostics, List.filterMap_map]
  exact List.filterMap_some

lemma diagnostics_rejected (log : Log) (reason : Rejection) :
    (Compilation.rejected log reason).log.diagnostics =
      log.diagnostics ++ (Compilation.rejected log reason).diagnostics :=
  diagnostics_append log _

lemma diagnostics_compile {target : Target} {node : Node} {compiled : Compiled}
    (h : compile target node = some compiled) : compiled.log.diagnostics = compiled.diagnostics := by
  rw [compile_eq] at h
  obtain ⟨u, _, rfl⟩ := Option.map_eq_some_iff.mp h
  rfl

lemma diagnostics_resolveLog (table flat : FlatTree) : Log.diagnostics (resolveLog table flat) = [] := by
  rw [Log.diagnostics, List.filterMap_eq_nil_iff]
  intro event he
  obtain ⟨⟨path, leaf⟩, _, hl⟩ := List.mem_filterMap.mp he
  simp only [event?] at hl
  split at hl
  · exact absurd hl (by simp)
  · obtain rfl := Option.some.inj hl
    rfl
  · obtain rfl := Option.some.inj hl
    rfl

lemma diagnostics_aliasTree {aliased : Json.Members} {log : Log}
    (h : aliasTree members aliases = .ok (aliased, log)) : log.diagnostics = [] := by
  rw [aliasTree] at h
  split at h
  · exact absurd h (by simp)
  · next flat table _ =>
    obtain ⟨_, _, hlog⟩ := map_eq_ok h
    obtain ⟨_, rfl⟩ := Prod.mk.inj hlog
    exact diagnostics_resolveLog table flat

lemma diagnostics_bindRoot (flat : FlatRegistry) (root : String) (ambient : Attributes)
    (adapter : String) : (flat.bindRoot root ambient adapter).log.diagnostics =
      (flat.bindRoot root ambient adapter).diagnostics := by
  rw [FlatRegistry.bindRoot]
  split
  · rfl
  · dsimp only
    rw [diagnostics_append, diagnostics_reported]
    exact List.append_nil _

lemma diagnostics_bound (flat : FlatRegistry) (root : String) (ambient : Attributes)
    (adapter : String) : (flat.bindRoot root ambient adapter).diagnostics =
      if NameMap.contains flat root = true ∧ NameMap.contains flat adapter = true then
        [Binding.collision adapter] else [] := by
  cases hg : NameMap.get? flat root with
  | none =>
    rw [bindRoot_of_unregistered ambient adapter hg]
    simp [NameMap.contains, hg]
  | some component =>
    obtain ⟨log, hb⟩ := bindRoot_of_registered ambient adapter hg
    have hr : NameMap.contains flat root = true := by simp [NameMap.contains, hg]
    rw [hb, Binding.collisions]
    cases hc : NameMap.contains flat adapter <;> simp [hr]

lemma compileBound_logs {binding : Binding} {log : Log}
    (hl : log.diagnostics = binding.diagnostics) {built : Compilation}
    (h : compileBound members aliases options binding log = some built) :
    (∀ forms, flatForms members aliases = .ok forms →
      built.log.diagnostics = built.diagnostics) ∧
    ∀ e, flatForms members aliases = .error e →
      built.log.diagnostics = binding.diagnostics ++ built.diagnostics := by
  refine ⟨?_, ?_⟩
  · rintro ⟨flat, renames⟩ hf
    obtain ⟨aliased, aliasLog, ha⟩ := aliasTree_ok hf
    simp only [compileBound, ha] at h
    obtain ⟨compiled, hc, rfl⟩ := Option.map_eq_some_iff.mp h
    have hd := diagnostics_compile hc
    have halias := diagnostics_aliasTree ha
    rw [diagnostics_append, diagnostics_append, hl, halias, hd, List.append_nil]
  · intro e hf
    rw [compileBound_of_error hf] at h
    obtain rfl := Option.some.inj h
    rw [diagnostics_rejected, hl]

end Logs

section Collision

variable {members : Json.Members} {registry : Registry} {aliases : Json} {options : Options}
  {root : String} {flat : FlatRegistry}

lemma rejectedAfterCollision_iff (hn : Node.componentOf members = some root)
    (hf : registry.flatten = .ok flat) :
    RejectedAfterCollision (.object members) registry aliases options ↔
      (NameMap.contains flat root = true ∧ NameMap.contains flat options.rootAdapter = true) ∧
        ∃ e, flatForms members aliases = .error e := by
  refine ⟨?_, ?_⟩
  · rintro ⟨_, other, another, ht, ho, hflat, hr, ha, e, he⟩
    obtain rfl := Json.object.inj ht
    obtain rfl : root = other := Option.some.inj (hn.symm.trans (componentOf_eq_some.mpr ho))
    obtain rfl := Except.ok.inj (hf.symm.trans hflat)
    refine ⟨⟨hr, ha⟩, ?_⟩
    rcases flatForms_cases members aliases with ⟨⟨flatTree, renames⟩, hforms⟩ | ⟨e, hforms, _⟩
    · have hm : Malformed registry aliases (.object members) :=
        he.elim .tree fun ⟨_, htable, he⟩ => .aliases htable he
      exact absurd hm (not_malformed_iff.mpr
        ⟨members, root, flat, flatTree, renames, rfl, componentOf_eq_some.mp hn, hf, hforms⟩)
    · exact ⟨e, hforms⟩
  · rintro ⟨⟨hr, ha⟩, e, he⟩
    rcases flatForms_cases members aliases with ⟨forms, hforms⟩ | ⟨e, _, hfault⟩
    · exact absurd (he.symm.trans hforms) (by simp)
    · exact ⟨members, root, flat, rfl, componentOf_eq_some.mp hn, hf, hr, ha, e, hfault⟩

end Collision

/-- A result has the diagnostics that were told to the log, each once and in the same order, unless the input
was rejected after a collision: then the collision was told as well, before the rejection. -/
theorem build_logs_diagnostics {tree : Json} {registry : Registry} {aliases : Json}
    {ambient : Attributes} {options : Options} {built : Compilation}
    (h : build tree registry aliases ambient options = some built) :
    (¬RejectedAfterCollision tree registry aliases options →
      built.log.diagnostics = built.diagnostics) ∧
    (RejectedAfterCollision tree registry aliases options →
      built.log.diagnostics = Binding.collision options.rootAdapter :: built.diagnostics) := by
  cases tree with
  | object members =>
    cases hn : Node.componentOf members with
    | none =>
      simp only [build, hn, Option.some.injEq] at h
      subst h
      refine ⟨fun _ => diagnostics_rejected _ _, ?_⟩
      rintro ⟨_, root, _, ht, hr, _⟩
      obtain rfl := Json.object.inj ht
      exact absurd (hn.symm.trans (componentOf_eq_some.mpr hr)) (by simp)
    | some root =>
      cases hf : registry.flatten with
      | error e =>
        simp only [build, hn, hf, Option.some.injEq] at h
        subst h
        refine ⟨fun _ => diagnostics_rejected _ _, ?_⟩
        rintro ⟨_, _, flat, _, _, hflat, _⟩
        exact absurd (hf.symm.trans hflat) (by simp)
      | ok flat =>
        simp only [build, hn, hf] at h
        have hlog : Log.diagnostics (.registryFlattened flat.length ::
            (flat.bindRoot root ambient options.rootAdapter).log) =
            (flat.bindRoot root ambient options.rootAdapter).diagnostics :=
          diagnostics_bindRoot flat root ambient options.rootAdapter
        obtain ⟨hok, herror⟩ := compileBound_logs hlog h
        rw [diagnostics_bound] at herror
        rw [rejectedAfterCollision_iff hn hf]
        refine ⟨?_, ?_⟩
        · intro hno
          rcases flatForms_cases members aliases with ⟨forms, hforms⟩ | ⟨e, hforms, _⟩
          · exact hok forms hforms
          · have hb := herror e hforms
            rwa [if_neg fun hb => hno ⟨hb, e, hforms⟩] at hb
        · rintro ⟨hboth, e, hforms⟩
          have hb := herror e hforms
          rwa [if_pos hboth] at hb
  | _ =>
    obtain rfl := Option.some.inj h
    refine ⟨fun _ => diagnostics_rejected _ _, ?_⟩
    rintro ⟨members, _, _, ht, _⟩
    cases ht

section Desk

def deskRegistry : Registry :=
  [("Desk", .component (.host "Desk" [])), ("RootAdapter", .component (.host "RootAdapter" []))]

def deskFlat : FlatRegistry :=
  [("Desk", .host "Desk" []), ("RootAdapter", .host "RootAdapter" [])]

def desk : Json.Members :=
  [("_", .string "Desk"), ("$", .array #[.object [("_", .string "Lamp")]])]

def dottedDesk : Json.Members :=
  [("_", .string "Desk"), ("a.b", .bool true)]

def deskReports : List Diagnostic :=
  [Binding.collision rootAdapterName, unresolved (some "Lamp") [.key "$", .index 0]]

lemma build_desk : (build (.object desk) deskRegistry .null [] Options.default).map
    (·.diagnostics) = some deskReports := by
  decide +kernel

lemma flatten_desk : deskRegistry.flatten = .ok deskFlat := by
  rfl

lemma not_rejected_desk : ¬RejectedAfterCollision (.object desk) deskRegistry .null Options.default := by
  have hn : Node.componentOf desk = some "Desk" := rfl
  rw [rejectedAfterCollision_iff hn flatten_desk]
  rintro ⟨_, e, he⟩
  exact absurd he (by simp [flatForms, show ofTree desk = .ok _ from rfl])

lemma rejected_dottedDesk :
    RejectedAfterCollision (.object dottedDesk) deskRegistry .null Options.default := by
  have hn : Node.componentOf dottedDesk = some "Desk" := rfl
  rw [rejectedAfterCollision_iff hn flatten_desk]
  exact ⟨⟨by decide, by decide⟩, _, rfl⟩

end Desk

theorem build_logs_diagnostics_desk :
    ¬RejectedAfterCollision (.object desk) deskRegistry .null Options.default ∧
    RejectedAfterCollision (.object dottedDesk) deskRegistry .null Options.default ∧
    (∃ built, build (.object desk) deskRegistry .null [] Options.default = some built ∧
      built.diagnostics = deskReports ∧ built.log.diagnostics = deskReports) ∧
    ∃ built, build (.object dottedDesk) deskRegistry .null [] Options.default = some built ∧
      built.log.diagnostics = Binding.collision rootAdapterName :: built.diagnostics := by
  obtain ⟨built, hb, hd⟩ := Option.map_eq_some_iff.mp build_desk
  have hlog := (build_logs_diagnostics hb).1 not_rejected_desk
  have hdotted := (@build_logs_diagnostics (.object dottedDesk) deskRegistry .null []
    Options.default _ rfl).2 rejected_dottedDesk
  exact ⟨not_rejected_desk, rejected_dottedDesk, ⟨built, hb, hd, hlog.trans hd⟩, _, rfl, hdotted⟩

theorem not_build_logs_diagnostics_dotted : ¬∀ (tree : Json) (registry : Registry) (aliases : Json)
    (ambient : Attributes) (options : Options) (built : Compilation),
    build tree registry aliases ambient options = some built →
      built.log.diagnostics = built.diagnostics := by
  intro h
  have hd := h (.object dottedDesk) deskRegistry .null [] Options.default _ rfl
  exact absurd (congrArg List.length hd) (by decide)

end TreeMarkup.Markup
