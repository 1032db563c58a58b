import TreeMarkup.Registry.Manifest
import TreeMarkup.Proofs.FlatTree.Leaves
import TreeMarkup.Proofs.Registry.Flattening

namespace TreeMarkup.Registry

structure Member where
  parent : List String
  name : String
  value : Json

mutual

def visitedIn (place : List String) : Json → List Member
  | .object members => if Fields.contains members defaultsKey then [] else visited place members
  | _ => []

def visited (parent : List String) : List (String × Json) → List Member
  | [] => []
  | (name, value) :: rest =>
    ⟨parent, name, value⟩ :: (visitedIn (parent ++ [name]) value ++ visited parent rest)

end

def declares? : Json → Option Attributes
  | .null => some []
  | .bool true => some []
  | .object members => (Fields.get? members defaultsKey).bind Json.members?
  | _ => none

def componentAt? (place : List String) (value : Json) : Option (List String × Component) :=
  (declares? value).map fun defaults => (place, .host (Path.dotted place) defaults)

def WellFormed : Json → Prop
  | .null => True
  | .bool b => b = true
  | .object members =>
    ∀ found, Fields.get? members defaultsKey = some found → ∃ defaults, found = .object defaults
  | _ => False

def valueFault? (path : Path) : Json → Option RegistryError
  | .null => none
  | .bool true => none
  | .object members =>
    match Fields.get? members defaultsKey with
    | some (.object _) => none
    | some _ => some (.invalidDefaults path)
    | none => none
  | other => some (.invalidEntry path other)

namespace Member

def place (m : Member) : List String :=
  m.parent ++ [m.name]

def dotted (m : Member) : String :=
  Path.dotted m.place

structure Sound (m : Member) : Prop where
  name : Path.IsKey m.name
  value : WellFormed m.value

/-- What a member is refused for, its name before its value. -/
inductive Offends (m : Member) : RegistryError → Prop
  | unnamed (name : m.name = "") : Offends m (.invalidName (.emptyKey (Path.ofNames m.parent)))
  | delimiter (name : m.name ≠ "") (c : Char) (mem : c ∈ m.name.toList)
      (is : Path.isDelimiter c = true) : Offends m (.invalidName (.delimiter m.name))
  | defaults (name : Path.IsKey m.name) (members : List (String × Json)) (found : Json)
      (value : m.value = .object members) (carries : Fields.get? members defaultsKey = some found)
      (object : ∀ defaults, found ≠ .object defaults) :
      Offends m (.invalidDefaults (Path.ofNames m.place))
  | entry (name : Path.IsKey m.name) (null : m.value ≠ .null) (bool : m.value ≠ .bool true)
      (object : ∀ members, m.value ≠ .object members) :
      Offends m (.invalidEntry (Path.ofNames m.place) m.value)

def fault? (m : Member) : Option RegistryError :=
  match Path.checkKey m.name (Path.ofNames m.parent) with
  | .error e => some (.invalidName e)
  | .ok () => valueFault? (Path.ofNames m.place) m.value

def leaf? (m : Member) : Option (List String × Component) :=
  componentAt? m.place m.value

end Member

section Faults

lemma valueFault?_eq_none {path : Path} {value : Json} :
    valueFault? path value = none ↔ WellFormed value := by
  cases value with
  | bool b => cases b <;> simp [valueFault?, WellFormed]
  | object members =>
    rw [valueFault?, WellFormed]
    cases hg : Fields.get? members defaultsKey with
    | none => simp
    | some found => cases found <;> simp
  | _ => simp [valueFault?, WellFormed]

lemma valueFault?_eq_some {path : Path} {value : Json} {e : RegistryError} :
    valueFault? path value = some e ↔
      (∃ members found, value = .object members ∧
        Fields.get? members defaultsKey = some found ∧ (∀ defaults, found ≠ .object defaults) ∧
        e = .invalidDefaults path) ∨
      (value ≠ .null ∧ value ≠ .bool true ∧ (∀ members, value ≠ .object members) ∧
        e = .invalidEntry path value) := by
  cases value with
  | bool b => cases b <;> simp [valueFault?, eq_comm]
  | object members =>
    rw [valueFault?]
    cases hg : Fields.get? members defaultsKey with
    | none => simp [hg]
    | some found => cases found <;> simp [hg, eq_comm]
  | _ => simp [valueFault?, eq_comm]

lemma Member.fault?_eq_none (m : Member) : m.fault? = none ↔ m.Sound := by
  have hk := Path.checkKey_eq_ok m.name (Path.ofNames m.parent)
  rw [fault?]
  cases hc : Path.checkKey m.name (Path.ofNames m.parent) with
  | error e =>
    rw [hc] at hk
    have hn : ¬Path.IsKey m.name := fun h => by simpa using hk.mpr h
    simpa using fun h : m.Sound => hn h.name
  | ok u =>
    have hn := hk.mp hc
    simp only [valueFault?_eq_none]
    exact ⟨fun h => ⟨hn, h⟩, fun h => h.value⟩

lemma Member.offends_of_fault? {m : Member} {e : RegistryError} (h : m.fault? = some e) :
    m.Offends e := by
  rw [fault?] at h
  cases hc : Path.checkKey m.name (Path.ofNames m.parent) with
  | error found =>
    rw [hc] at h
    obtain rfl := Option.some.inj h
    rcases Path.checkKey_eq_error.mp hc with ⟨hn, rfl⟩ | ⟨hn, ⟨c, hm, hd⟩, rfl⟩
    · exact .unnamed hn
    · exact .delimiter hn c hm hd
  | ok u =>
    have hn := (Path.checkKey_eq_ok _ _).mp hc
    rw [hc] at h
    rcases valueFault?_eq_some.mp h with ⟨members, found, hv, hg, ho, rfl⟩ | ⟨h0, h1, ho, rfl⟩
    · exact .defaults hn members found hv hg ho
    · exact .entry hn h0 h1 ho

lemma Member.Offends.fault? {m : Member} {e : RegistryError} (h : m.Offends e) :
    m.fault? = some e := by
  have hk := Path.checkKey_eq_ok m.name (Path.ofNames m.parent)
  cases h with
  | unnamed hn =>
    have hc : Path.checkKey m.name (Path.ofNames m.parent) = .error (.emptyKey _) :=
      Path.checkKey_eq_error.mpr (Or.inl ⟨hn, rfl⟩)
    rw [Member.fault?, hc]
  | delimiter hn c hm hd =>
    have hc : Path.checkKey m.name (Path.ofNames m.parent) = .error (.delimiter m.name) :=
      Path.checkKey_eq_error.mpr (Or.inr ⟨hn, ⟨c, hm, hd⟩, rfl⟩)
    rw [Member.fault?, hc]
  | defaults hn members found hv hg ho =>
    rw [Member.fault?, hk.mpr hn]
    exact valueFault?_eq_some.mpr (Or.inl ⟨members, found, hv, hg, ho, rfl⟩)
  | entry hn h0 h1 ho =>
    rw [Member.fault?, hk.mpr hn]
    exact valueFault?_eq_some.mpr (Or.inr ⟨h0, h1, ho, rfl⟩)

lemma Member.fault?_eq_some (m : Member) (e : RegistryError) : m.fault? = some e ↔ m.Offends e :=
  ⟨offends_of_fault?, Offends.fault?⟩

end Faults

section Errors

lemma findSome?_visited_cons (parent : List String) (name : String) (value : Json)
    (rest : List (String × Json)) :
    (visited parent ((name, value) :: rest)).findSome? Member.fault? =
      ((Member.fault? ⟨parent, name, value⟩).or
        ((visitedIn (parent ++ [name]) value).findSome? Member.fault?)).or
          ((visited parent rest).findSome? Member.fault?) := by
  rw [visited, List.findSome?_cons, List.findSome?_append]
  cases Member.fault? ⟨parent, name, value⟩ <;> rfl

mutual

lemma declared_eq_error (place : List String) (value : Json) (e : RegistryError) :
    declared (Path.ofNames place) value = .error e ↔
      (valueFault? (Path.ofNames place) value).or
        ((visitedIn place value).findSome? Member.fault?) = some e := by
  match value with
  | .null => simp [declared, valueFault?, visitedIn]
  | .bool true => simp [declared, valueFault?, visitedIn]
  | .bool false => simp [declared, valueFault?]
  | .number n => simp [declared, valueFault?]
  | .string s => simp [declared, valueFault?]
  | .array xs => simp [declared, valueFault?]
  | .object members =>
    have ha := declareAll_eq_error place [] members e
    cases hg : Fields.get? members defaultsKey with
    | none =>
      simp only [declared, valueFault?, visitedIn, Fields.contains, hg, Option.isSome_none,
        Bool.false_eq_true, if_false, Option.none_or, ← ha]
      cases declareAll (Path.ofNames place) [] members <;> simp [Except.map]
    | some found =>
      cases found <;> simp [declared, valueFault?, visitedIn, Fields.contains, hg]

lemma declareAll_eq_error (place : List String) (entries : List (String × Entry))
    (members : List (String × Json)) (e : RegistryError) :
    declareAll (Path.ofNames place) entries members = .error e ↔
      (visited place members).findSome? Member.fault? = some e := by
  match members with
  | [] => simp [declareAll, visited]
  | (name, value) :: rest =>
    have hv := declared_eq_error (place ++ [name]) value
    -- A name is refused before its value, and both before the members that follow.
    rw [declareAll, findSome?_visited_cons, Member.fault?]
    cases hc : Path.checkKey name (Path.ofNames place) with
    | error found => simp
    | ok u =>
      simp only [Path.child_ofNames, Member.place]
      cases hd : declared (Path.ofNames (place ++ [name])) value with
      | error found =>
        rw [(hv found).mp hd]
        simp
      | ok entry =>
        have hr := declareAll_eq_error place (NameMap.insert name entry entries) rest e
        rw [(exists_ok_iff hv).mp ⟨entry, hd⟩, Option.none_or, ← hr]

end

end Errors

section Leaves

variable {place : List String}

lemma filterMap_visited_cons (name : String) (value : Json) (rest : List (String × Json)) :
    (visited place ((name, value) :: rest)).filterMap Member.leaf? =
      ((componentAt? (place ++ [name]) value).toList ++
        (visitedIn (place ++ [name]) value).filterMap Member.leaf?) ++
          (visited place rest).filterMap Member.leaf? := by
  have hm : Member.leaf? ⟨place, name, value⟩ = componentAt? (place ++ [name]) value := rfl
  rw [visited, List.filterMap_cons, List.filterMap_append, hm]
  cases componentAt? (place ++ [name]) value <;> simp

lemma visitedIn_of_component {members : List (String × Json)} {found : Json}
    (h : Fields.get? members defaultsKey = some found) : visitedIn place (.object members) = [] := by
  rw [visitedIn, if_pos (by simp [Fields.contains, h])]

lemma visitedIn_of_space {members : List (String × Json)}
    (h : Fields.get? members defaultsKey = none) :
    visitedIn place (.object members) = visited place members := by
  rw [visitedIn, if_neg (by simp [Fields.contains, h])]

structure Filled (place : List String) (members : List (String × Json))
    (before entries : List (String × Entry)) : Prop where
  tidy : Tidy (.space entries)
  leaves : (leavesIn place entries).Perm
    ((visited place members).filterMap Member.leaf? ++ leavesIn place before)

structure Registers (place : List String) (value : Json) (entry : Entry) : Prop where
  tidy : Tidy entry
  leaves : (leavesAt place entry).Perm ((componentAt? place value).toList ++
    (visitedIn place value).filterMap Member.leaf?)

lemma registers_host {value : Json} {defaults : Attributes} (hd : declares? value = some defaults)
    (hv : visitedIn place value = []) :
    Registers place value (.component (.host (Path.ofNames place).text defaults)) := by
  refine ⟨⟨.component _, .component _⟩, ?_⟩
  rw [componentAt?, hd, hv, Path.text_ofNames]
  exact List.Perm.refl _

lemma Filled.space {members : List (String × Json)} {entries : List (String × Entry)}
    (h : Filled place members [] entries) (hg : Fields.get? members defaultsKey = none) :
    Registers place (.object members) (.space entries) := by
  refine ⟨h.tidy, ?_⟩
  rw [leavesAt, visitedIn_of_space hg, componentAt?, declares?, hg]
  simpa [leavesIn] using h.leaves

lemma Filled.after_insert {name : String} {value : Json} {entry : Entry}
    {rest : List (String × Json)} {before entries : List (String × Entry)}
    (h : Filled place rest (NameMap.insert name entry before) entries)
    (hfree : name ∉ NameMap.names before) (he : Registers (place ++ [name]) value entry) :
    Filled place ((name, value) :: rest) before entries := by
  refine ⟨h.tidy, ?_⟩
  have hi : (leavesIn place (NameMap.insert name entry before)).Perm _ :=
    (leavesIn_insert hfree place).trans (he.leaves.append_right _)
  have hall := h.leaves.trans (hi.append_left _)
  rw [filterMap_visited_cons]
  refine hall.trans ?_
  rw [← List.append_assoc]
  exact List.perm_append_comm.append_right _

mutual

lemma registers_declared {place : List String} {value : Json} {entry : Entry} (hr : value.Regular)
    (h : declared (Path.ofNames place) value = .ok entry) : Registers place value entry := by
  match value, hr, h with
  | .null, _, h =>
    obtain rfl := Except.ok.inj h
    exact registers_host rfl rfl
  | .bool true, _, h =>
    obtain rfl := Except.ok.inj h
    exact registers_host rfl rfl
  | .bool false, _, h => exact absurd h (by simp [declared])
  | .number _, _, h => exact absurd h (by simp [declared])
  | .string _, _, h => exact absurd h (by simp [declared])
  | .array _, _, h => exact absurd h (by simp [declared])
  | .object members, hr, h =>
    cases hg : Fields.get? members defaultsKey with
    | none =>
      rw [declared, hg] at h
      obtain ⟨entries, he, rfl⟩ := map_eq_ok h
      have hf : Filled place members [] entries :=
        filled_declareAll hr.1 hr.2 (fun _ _ => List.not_mem_nil) tidy_empty he
      exact hf.space hg
    | some found =>
      rw [declared, hg] at h
      cases found with
      | object defaults =>
        obtain rfl := Except.ok.inj h
        exact registers_host (by simp [declares?, hg, Json.members?]) (visitedIn_of_component hg)
      | _ => cases h

lemma filled_declareAll {place : List String} {members : List (String × Json)}
    {before entries : List (String × Entry)} (hd : Fields.Distinct members)
    (hr : Json.RegularMembers members)
    (hfree : ∀ n ∈ Fields.names members, n ∉ NameMap.names before)
    (htidy : Tidy (.space before))
    (h : declareAll (Path.ofNames place) before members = .ok entries) :
    Filled place members before entries := by
  match members, hd, hr, hfree, h with
  | [], _, _, _, h =>
    obtain rfl := Except.ok.inj h
    exact ⟨htidy, List.Perm.refl _⟩
  | (name, value) :: rest, hd, hr, hfree, h =>
    obtain ⟨hname, hrest⟩ := List.nodup_cons.mp hd
    have hn : name ∉ NameMap.names before := hfree name List.mem_cons_self
    rw [declareAll] at h
    cases hc : Path.checkKey name (Path.ofNames place) with
    | error e =>
      rw [hc] at h
      cases h
    | ok u =>
      have hk := (Path.checkKey_eq_ok _ _).mp hc
      simp only [hc, Path.child_ofNames] at h
      cases he : declared (Path.ofNames (place ++ [name])) value with
      | error e =>
        rw [he] at h
        cases h
      | ok entry =>
        rw [he] at h
        have hentry := registers_declared hr.1 he
        -- Insertion puts the entry among those before it, so leaves agree up to order only.
        have hlater : ∀ n ∈ Fields.names rest,
            n ∉ NameMap.names (NameMap.insert name entry before) := by
          intro n hm hi
          rcases List.mem_cons.mp ((names_insert_perm hn).mem_iff.mp hi) with rfl | hi
          · exact hname hm
          · exact hfree n (List.mem_cons_of_mem _ hm) hi
        have hf := filled_declareAll hrest hr.2 hlater (htidy.insert hentry.tidy hk hn) h
        exact hf.after_insert hn hentry

end

end Leaves

section Exact

def RefusedFor (members : List (String × Json)) (e : RegistryError) : Prop :=
  ∃ before m later, visited [] members = before ++ m :: later ∧ (∀ b ∈ before, b.Sound) ∧
    m.Offends e

lemma findSome?_fault?_eq_some {members : List (String × Json)} {e : RegistryError} :
    (visited [] members).findSome? Member.fault? = some e ↔ RefusedFor members e := by
  simp only [List.findSome?_eq_some_iff, Member.fault?_eq_some, Member.fault?_eq_none, RefusedFor]
  constructor
  · rintro ⟨before, m, later, hs, hm, hb⟩
    exact ⟨before, m, later, hs, hb, hm⟩
  · rintro ⟨before, m, later, hs, hb, hm⟩
    exact ⟨before, m, later, hs, hm, hb⟩

lemma ofManifest_eq_error {manifest : Json} {e : RegistryError} :
    ofManifest manifest = .error e ↔
      ((∀ members, manifest ≠ .object members) ∧ e = .notAnObject manifest) ∨
      ∃ members, manifest = .object members ∧ RefusedFor members e := by
  cases manifest with
  | object members =>
    have h : declareAll [] [] members = .error e ↔ _ := declareAll_eq_error [] [] members e
    rw [findSome?_fault?_eq_some] at h
    simpa [ofManifest] using h
  | _ => simp [ofManifest, eq_comm]

lemma exists_ofManifest {manifest : Json} :
    (∃ registry, ofManifest manifest = .ok registry) ↔
      ∃ members, manifest = .object members ∧ ∀ m ∈ visited [] members, m.Sound := by
  cases manifest with
  | object members =>
    have h : (∃ registry, declareAll [] [] members = .ok registry) ↔ _ :=
      exists_ok_iff (declareAll_eq_error [] [] members)
    simp only [List.findSome?_eq_none_iff, Member.fault?_eq_none] at h
    simpa [ofManifest] using h
  | _ => simp [ofManifest]

lemma flatten_ofManifest {members : List (String × Json)} {registry : Registry}
    (hr : (Json.object members).Regular) (h : ofManifest (.object members) = .ok registry) :
    ∃ flat : FlatRegistry, registry.flatten = .ok flat ∧ (NameMap.names flat).Nodup ∧
      flat.Perm (((visited [] members).filterMap Member.leaf?).map dottedLeaf) := by
  have hf : Filled [] members [] registry :=
    filled_declareAll hr.1 hr.2 (fun _ _ => List.not_mem_nil) tidy_empty h
  obtain ⟨flat, hflat, hnodup, hp⟩ := flatten_perm hf.tidy
  refine ⟨flat, hflat, hnodup, hp.trans ?_⟩
  have hl := hf.leaves.map dottedLeaf
  rwa [leavesIn, List.append_nil] at hl

lemma names_leaves (ms : List Member) : ((ms.filterMap Member.leaf?).map dottedLeaf).map Prod.fst =
    (ms.filter fun m => (declares? m.value).isSome).map Member.dotted := by
  induction ms with
  | nil => rfl
  | cons m rest ih =>
    cases hd : declares? m.value with
    | none => simpa [List.filterMap_cons, Member.leaf?, componentAt?, hd] using ih
    | some defaults =>
      simpa [List.filterMap_cons, Member.leaf?, componentAt?, hd, dottedLeaf, Member.dotted] using ih

end Exact

/-- A manifest that loads flattens to the components that its members declare: one under each dotted
name, rendering as itself, with the defaults that stand in the manifest. One that does not load is
refused for its first offending member. -/
theorem ofManifest_exact (manifest : Json) :
    ((∃ registry, ofManifest manifest = .ok registry) ↔
      ∃ members, manifest = .object members ∧ ∀ m ∈ visited [] members, m.Sound) ∧
    (∀ e, ofManifest manifest = .error e ↔
      ((∀ members, manifest ≠ .object members) ∧ e = .notAnObject manifest) ∨
      ∃ members, manifest = .object members ∧ RefusedFor members e) ∧
    ∀ members registry, manifest = .object members → manifest.Regular →
      ofManifest manifest = .ok registry → ∃ flat, registry.flatten = .ok flat ∧
        (NameMap.names flat).Perm (((visited [] members).filter fun m =>
          (declares? m.value).isSome).map Member.dotted) ∧
        ∀ m ∈ visited [] members, ∀ defaults, declares? m.value = some defaults →
          (NameMap.get? flat m.dotted).map Component.defaults = some defaults ∧
          ∀ attributes, flat.render m.dotted attributes = some ⟨m.dotted, attributes⟩ := by
  refine ⟨exists_ofManifest, fun e => ofManifest_eq_error, ?_⟩
  rintro members registry rfl hr h
  obtain ⟨flat, hflat, hnodup, hp⟩ := flatten_ofManifest hr h
  refine ⟨flat, hflat, ?_, ?_⟩
  · rw [← names_leaves]
    exact hp.map Prod.fst
  · intro m hm defaults hd
    have hl : m.leaf? = some (m.place, .host m.dotted defaults) := by
      rw [Member.leaf?, componentAt?, hd]
      rfl
    have hmem : (m.dotted, .host m.dotted defaults) ∈ flat :=
      hp.mem_iff.mpr (List.mem_map.mpr ⟨_, List.mem_filterMap.mpr ⟨m, hm, hl⟩, rfl⟩)
    have hg := NameMap.get?_of_mem hnodup hmem
    simp only [FlatRegistry.render, hg]
    exact ⟨rfl, fun _ => rfl⟩

section Toolkit

def toolkit : List (String × Json) :=
  [("ui", .object [
      ("Box", .object [("defaultAttributes", .object [("gap", .null)]), ("a.b", .string "")]),
      ("Card", .bool true)]),
    ("Panel", .null)]

def toolkitRegistry : Registry :=
  [("Panel", .component (.host "Panel" [])),
    ("ui", .space [("Box", .component (.host "ui.Box" [("gap", .null)])),
      ("Card", .component (.host "ui.Card" []))])]

lemma regular_toolkit : (Json.object toolkit).Regular := by
  simp [toolkit, Json.Regular, Json.RegularMembers, Fields.Distinct, Fields.names]

end Toolkit

theorem ofManifest_exact_toolkit : (Json.object toolkit).Regular ∧
    ofManifest (.object toolkit) = .ok toolkitRegistry ∧
    ∃ flat, toolkitRegistry.flatten = .ok flat ∧
      (NameMap.names flat).Perm ["ui.Box", "ui.Card", "Panel"] ∧
      (NameMap.get? flat "ui.Box").map Component.defaults = some [("gap", .null)] ∧
      flat.render "ui.Box" [("title", .null)] = some ⟨"ui.Box", [("title", .null)]⟩ := by
  have hload : ofManifest (.object toolkit) = .ok toolkitRegistry := rfl
  obtain ⟨_, _, hexact⟩ := ofManifest_exact (.object toolkit)
  obtain ⟨flat, hflat, hnames, hentries⟩ := hexact toolkit toolkitRegistry rfl regular_toolkit hload
  have hbox := hentries ⟨["ui"], "Box", _⟩ (.tail _ (.head _)) [("gap", .null)] rfl
  exact ⟨regular_toolkit, hload, flat, hflat, hnames, hbox.1, hbox.2 _⟩

end TreeMarkup.Registry
