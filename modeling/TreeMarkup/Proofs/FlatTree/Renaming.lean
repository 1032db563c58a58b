import TreeMarkup.Alias
import TreeMarkup.Proofs.FlatTree.RoundTrip

namespace TreeMarkup.FlatTree

section Keys

variable {aliases flat : FlatTree} {tree : Json.Members} {key : String} {path : Path}

lemma target_of_path {t : String} (hg : Fields.get? aliases key = some (.string t))
    (hp : Path.parse t = .ok path) : target aliases key = t := by
  simp [target, ruling, hg, hp]

lemma target_of_no_path (h : ∀ t other, Fields.get? aliases key = some (.string t) →
    Path.parse t ≠ .ok other) : target aliases key = key := by
  rw [target, ruling]
  cases hg : Fields.get? aliases key with
  | none => rfl
  | some value =>
    cases value with
    | string t =>
      cases ht : Path.parse t with
      | error e => simp [ht]
      | ok other => exact absurd ht (h t other hg)
    | _ => rfl

inductive RenamedTo (aliases : FlatTree) (key : String) : String → Prop
  | renamed {t : String} {path : Path} : Fields.get? aliases key = some (.string t) →
      Path.parse t = .ok path → RenamedTo aliases key t
  | kept : (∀ t path, Fields.get? aliases key = some (.string t) → Path.parse t ≠ .ok path) →
      RenamedTo aliases key key

lemma renamedTo_target (aliases : FlatTree) (key : String) :
    RenamedTo aliases key (target aliases key) := by
  by_cases h : ∃ t path, Fields.get? aliases key = some (.string t) ∧ Path.parse t = .ok path
  · obtain ⟨t, path, hg, hp⟩ := h
    rw [target_of_path hg hp]
    exact .renamed hg hp
  · have hk : ∀ t path, Fields.get? aliases key = some (.string t) → Path.parse t ≠ .ok path :=
      fun t path hg hp => h ⟨t, path, hg, hp⟩
    rw [target_of_no_path hk]
    exact .kept hk

lemma RenamedTo.target_eq {name : String} (h : RenamedTo aliases key name) :
    target aliases key = name := by
  cases h with
  | renamed hg hp => exact target_of_path hg hp
  | kept hk => exact target_of_no_path hk

/-- The path at which the leaf under a key is written: what its alias spells, if the alias is a text that
spells a path, and what the key itself spells otherwise. -/
inductive MovedTo (aliases : FlatTree) (key : String) (path : Path) : Prop
  | renamed {t : String} : Fields.get? aliases key = some (.string t) → Path.parse t = .ok path →
      MovedTo aliases key path
  | kept : (∀ t other, Fields.get? aliases key = some (.string t) → Path.parse t ≠ .ok other) →
      Path.parse key = .ok path → MovedTo aliases key path

lemma movedTo_iff : MovedTo aliases key path ↔ Path.parse (target aliases key) = .ok path := by
  constructor
  · rintro (⟨hg, hp⟩ | ⟨hn, hp⟩)
    · rwa [target_of_path hg hp]
    · rwa [target_of_no_path hn]
  · intro h
    have hr := renamedTo_target aliases key
    generalize target aliases key = name at h hr
    cases hr with
    | renamed hg _ => exact .renamed hg h
    | kept hk => exact .kept hk h

lemma exists_path_target (h : ∃ path, Path.parse key = .ok path) :
    ∃ path, Path.parse (target aliases key) = .ok path := by
  have hr := renamedTo_target aliases key
  generalize target aliases key = name at hr
  cases hr with
  | renamed _ hp => exact ⟨_, hp⟩
  | kept _ => exact h

lemma exists_path_of_ofTree (h : ofTree tree = .ok flat) (hk : key ∈ Fields.names flat) :
    ∃ path, Path.parse key = .ok path := by
  rw [ofTree] at h
  split at h
  · exact absurd h (by simp)
  · next hf =>
    obtain rfl := Except.ok.inj h
    rw [Fields.ofList_eq_insertAll, Fields.names_insertAll] at hk
    have hm := Fields.firstNames_subset _ _ key hk
    rw [leaves_eq, List.map_map] at hm
    obtain ⟨leaf, hl, rfl⟩ := List.mem_map.mp hm
    exact ⟨leaf.1, Path.parse_text (readable_memberLeaves hf hl)⟩

lemma mem_names_resolve (hk : key ∈ Fields.names (resolve aliases flat)) :
    ∃ old ∈ Fields.names flat, key = target aliases old := by
  rw [resolve, Fields.ofList_eq_insertAll, Fields.names_insertAll] at hk
  have hm := Fields.firstNames_subset _ _ key hk
  rw [List.map_map] at hm
  obtain ⟨entry, he, rfl⟩ := List.mem_map.mp hm
  exact ⟨entry.1, List.mem_map_of_mem he, rfl⟩

lemma resolve_of_nodup (h : ((Fields.names flat).map (target aliases)).Nodup) :
    resolve aliases flat = flat.map fun entry => (target aliases entry.1, entry.2) := by
  rw [resolve, Fields.ofList_eq_insertAll]
  apply Fields.insertAll_of_distinct
  rw [List.nil_append, Fields.Distinct]
  simpa [Fields.names, Function.comp_def] using h

lemma resolve_of_kept (hd : Fields.Distinct flat)
    (h : ∀ key ∈ Fields.names flat, target aliases key = key) : resolve aliases flat = flat := by
  have hn : (Fields.names flat).map (target aliases) = Fields.names flat :=
    (List.map_congr_left h).trans (List.map_id _)
  rw [resolve_of_nodup (hn.symm ▸ hd)]
  refine (List.map_congr_left ?_).trans (List.map_id flat)
  intro entry he
  rw [h entry.1 (List.mem_map_of_mem he), id]

lemma toTree_resolve (h : ofTree tree = .ok flat) :
    ∃ result, toTree (resolve aliases flat) = .ok result ∧
      fill (.object []) ((resolve aliases flat).map spelled) = .object result := by
  apply toTree_eq_fill
  intro key hk
  obtain ⟨old, ho, rfl⟩ := mem_names_resolve hk
  exact exists_path_target (exists_path_of_ofTree h ho)

end Keys

def inverse (rename : String → String) (flat : FlatTree) : FlatTree :=
  (flat.filter fun entry => rename entry.1 ≠ entry.1).map fun entry =>
    (rename entry.1, .string entry.1)

section Renaming

variable {aliases flat : FlatTree} {rename : String → String}

lemma names_resolve (aliases flat : FlatTree) :
    Fields.names (resolve aliases flat) = ((Fields.names flat).map (target aliases)).eraseDups := by
  rw [resolve, Fields.names_ofList, List.map_map, Fields.names, List.map_map]
  rfl

lemma get?_resolve (aliases flat : FlatTree) (name : String) (value : Json) :
    Fields.get? (resolve aliases flat) name = some value ↔
      ∃ before key after, flat = before ++ (key, value) :: after ∧ target aliases key = name ∧
        ∀ later ∈ after, target aliases later.1 ≠ name := by
  rw [resolve, Fields.get?_ofList_eq_some]
  constructor
  · rintro ⟨before, after, hsplit, hafter⟩
    obtain ⟨front, rest, rfl, _, hrest⟩ := List.map_eq_append_iff.mp hsplit
    obtain ⟨⟨key, found⟩, back, rfl, hentry, rfl⟩ := List.map_eq_cons_iff.mp hrest
    obtain ⟨hname, rfl⟩ := Prod.mk.inj hentry
    refine ⟨front, key, back, rfl, hname, ?_⟩
    intro later hlater
    exact hafter _ (List.mem_map_of_mem hlater)
  · rintro ⟨before, key, after, rfl, rfl, hafter⟩
    refine ⟨before.map fun entry => (target aliases entry.1, entry.2),
      after.map fun entry => (target aliases entry.1, entry.2), by simp, ?_⟩
    intro entry he
    obtain ⟨later, hlater, rfl⟩ := List.mem_map.mp he
    exact hafter later hlater

lemma resolve_congr {other : FlatTree}
    (h : ∀ key ∈ Fields.names flat, Fields.get? other key = Fields.get? aliases key) :
    resolve other flat = resolve aliases flat := by
  have ht : ∀ entry ∈ flat, (target other entry.1, entry.2) = (target aliases entry.1, entry.2) := by
    intro entry he
    have hg := h entry.1 (List.mem_map_of_mem he)
    rw [target, target, ruling, ruling, hg]
  rw [resolve, resolve, List.map_congr_left ht]

lemma get?_inverse_of_kept (hinj : ∀ k ∈ Fields.names flat, ∀ l ∈ Fields.names flat,
    rename k = rename l → k = l) {key : String} (hk : key ∈ Fields.names flat)
    (h : rename key = key) : Fields.get? (inverse rename flat) key = none := by
  cases hg : Fields.get? (inverse rename flat) key with
  | none => rfl
  | some value =>
    obtain ⟨entry, he, heq⟩ := List.mem_map.mp (Fields.mem_of_get? hg)
    obtain ⟨hentry, hne⟩ := List.mem_filter.mp he
    have hname : rename entry.1 = rename key := (congrArg Prod.fst heq).trans h.symm
    have hsame := hinj _ (List.mem_map_of_mem hentry) _ hk hname
    simp [hsame, h] at hne

lemma get?_inverse_of_renamed (hinj : ∀ k ∈ Fields.names flat, ∀ l ∈ Fields.names flat,
    rename k = rename l → k = l) {key : String} (hk : key ∈ Fields.names flat)
    (h : rename key ≠ key) :
    Fields.get? (inverse rename flat) (rename key) = some (.string key) := by
  obtain ⟨entry, he, rfl⟩ := List.mem_map.mp hk
  have hmem : (rename entry.1, Json.string entry.1) ∈ inverse rename flat :=
    List.mem_map.mpr ⟨entry, List.mem_filter.mpr ⟨he, by simpa using h⟩, rfl⟩
  obtain ⟨value, hg⟩ := Fields.get?_of_mem_names (List.mem_map_of_mem (f := Prod.fst) hmem)
  obtain ⟨other, ho, heq⟩ := List.mem_map.mp (Fields.mem_of_get? hg)
  obtain ⟨hname, rfl⟩ := Prod.mk.inj heq
  have hsame := hinj _ (List.mem_map_of_mem (List.mem_filter.mp ho).1) _ (List.mem_map_of_mem he) hname
  rw [hg, hsame]

lemma target_inverse (hinj : ∀ k ∈ Fields.names flat, ∀ l ∈ Fields.names flat,
    rename k = rename l → k = l) {key : String} (hk : key ∈ Fields.names flat)
    (hp : ∃ path, Path.parse key = .ok path) :
    target (inverse rename flat) (rename key) = key := by
  by_cases h : rename key = key
  · rw [h]
    apply target_of_no_path
    intro t path hg
    rw [get?_inverse_of_kept hinj hk h] at hg
    cases hg
  · obtain ⟨path, hp⟩ := hp
    exact target_of_path (get?_inverse_of_renamed hinj hk h) hp

lemma distinct_inverse (hd : Fields.Distinct flat) (hinj : ∀ k ∈ Fields.names flat,
    ∀ l ∈ Fields.names flat, rename k = rename l → k = l) :
    Fields.Distinct (inverse rename flat) := by
  have hsub : ((flat.filter fun entry => rename entry.1 ≠ entry.1).map fun entry =>
      rename entry.1).Sublist ((Fields.names flat).map rename) := by
    rw [Fields.names, List.map_map]
    exact List.filter_sublist.map _
  have hnodup : ((Fields.names flat).map rename).Nodup := hd.map_on hinj
  rw [Fields.Distinct, Fields.names, inverse, List.map_map]
  exact hnodup.sublist hsub

lemma resolve_inverse (hd : Fields.Distinct flat) (hinj : ∀ k ∈ Fields.names flat,
    ∀ l ∈ Fields.names flat, rename k = rename l → k = l)
    (hp : ∀ key ∈ Fields.names flat, ∃ path, Path.parse key = .ok path) :
    resolve (inverse rename flat) (flat.map fun entry => (rename entry.1, entry.2)) = flat := by
  have hback : ∀ entry ∈ flat, target (inverse rename flat) (rename entry.1) = entry.1 := by
    intro entry he
    have hk : entry.1 ∈ Fields.names flat := List.mem_map_of_mem he
    exact target_inverse hinj hk (hp _ hk)
  have hnames : (Fields.names (flat.map fun entry => (rename entry.1, entry.2))).map
      (target (inverse rename flat)) = Fields.names flat := by
    rw [Fields.names, List.map_map, List.map_map]
    exact List.map_congr_left hback
  rw [resolve_of_nodup (hnames.symm ▸ hd), List.map_map]
  refine (List.map_congr_left ?_).trans (List.map_id flat)
  intro entry he
  exact Prod.ext (hback entry he) rfl

end Renaming

/-- The names of a resolved flat tree are the new names at their first places, and each has the value of
the last entry that gets it; a new name is not renamed again. If no two names become one, resolving renames
the entries where they stand, and the aliases that lead back restore them. -/
theorem resolve_renames {aliases flat : FlatTree} {rename : String → String}
    (h : ∀ key, RenamedTo aliases key (rename key)) :
    Fields.names (resolve aliases flat) = ((Fields.names flat).map rename).eraseDups ∧
    (∀ name value, Fields.get? (resolve aliases flat) name = some value ↔
      ∃ before key after, flat = before ++ (key, value) :: after ∧ rename key = name ∧
        ∀ later ∈ after, rename later.1 ≠ name) ∧
    (∀ other, (∀ key ∈ Fields.names flat, Fields.get? other key = Fields.get? aliases key) →
      resolve other flat = resolve aliases flat) ∧
    (Fields.Distinct flat →
      (∀ k ∈ Fields.names flat, ∀ l ∈ Fields.names flat, rename k = rename l → k = l) →
      (∀ key ∈ Fields.names flat, ∃ path, Path.parse key = .ok path) →
      resolve aliases flat = flat.map (fun entry => (rename entry.1, entry.2)) ∧
      Fields.Distinct (inverse rename flat) ∧
      resolve (inverse rename flat) (resolve aliases flat) = flat) := by
  obtain rfl : target aliases = rename := funext fun key => (h key).target_eq
  refine ⟨names_resolve aliases flat, get?_resolve aliases flat, fun _ => resolve_congr, ?_⟩
  intro hd hinj hp
  have hnodup : ((Fields.names flat).map (target aliases)).Nodup := hd.map_on hinj
  have hrenamed := resolve_of_nodup hnodup
  refine ⟨hrenamed, distinct_inverse hd hinj, ?_⟩
  rw [hrenamed, resolve_inverse hd hinj hp]

example : resolve [("a", .string "b")] [("a", .null), ("c", .null), ("b", .bool true)] =
    [("b", .bool true), ("c", .null)] := rfl

def crossed : FlatTree :=
  [("a", .string "b"), ("b", .string "a"), ("c.d", .string "e[0]"), ("f", .string ""), ("g", .null)]

def labels : FlatTree :=
  [("a", .bool true), ("c.d", .null), ("f", .string "a"), ("b", .bool false), ("g", .array #[])]

theorem resolve_renames_crossed :
    Fields.Distinct labels ∧
    (∀ key ∈ Fields.names labels, ∃ path, Path.parse key = .ok path) ∧
    resolve crossed labels = [("b", .bool true), ("e[0]", .null), ("f", .string "a"),
      ("a", .bool false), ("g", .array #[])] ∧
    inverse (target crossed) labels =
      [("b", .string "a"), ("e[0]", .string "c.d"), ("a", .string "b")] ∧
    resolve (inverse (target crossed) labels) (resolve crossed labels) = labels := by
  have hd : Fields.Distinct labels := by
    simp [Fields.Distinct, Fields.names, labels]
  have hp : ∀ key ∈ Fields.names labels, ∃ path, Path.parse key = .ok path := exists_path_of_all rfl
  obtain ⟨_, _, _, hundo⟩ := @resolve_renames crossed labels _ (renamedTo_target crossed)
  obtain ⟨_, _, hback⟩ := hundo hd (by decide) hp
  exact ⟨hd, hp, rfl, rfl, hback⟩

end TreeMarkup.FlatTree
