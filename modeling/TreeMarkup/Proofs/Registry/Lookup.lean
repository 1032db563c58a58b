import Mathlib.Data.Set.Card
import TreeMarkup.Proofs.Order.Bytes
import TreeMarkup.Proofs.Order.Least
import TreeMarkup.Proofs.Registry.Flattening

/-! A name of a flattened registry, split at its dots, leads through the spaces of the nested registry to
the component that it stands for. -/

namespace TreeMarkup.Registry

/-- What inserts of components and of registries built before can make. -/
inductive Built : Registry → Prop
  | empty : Built []
  | component {registry : Registry} (name : String) (c : Component) :
      Built registry → Built (NameMap.insert name (.component c) registry)
  | space {registry inner : Registry} (name : String) :
      Built registry → Built inner → Built (NameMap.insert name (.space inner) registry)

def walk : List String → Entry → Option Entry
  | [], entry => some entry
  | name :: names, .space entries => (NameMap.get? entries name).bind (walk names)
  | _ :: _, .component _ => none

def pieces (name : String) : List String :=
  (name.toList.splitOn '.').map String.ofList

lemma Built.sorted {registry : Registry} (h : Built registry) :
    (Entry.space registry).Throughout NameMap.Sorted := by
  induction h with
  | empty => exact .space List.Pairwise.nil fun _ he => absurd he List.not_mem_nil
  | component name c _ ih =>
    exact throughout_insert ih (.component c) (NameMap.sorted_insert ih.here name _)
  | space name _ _ ih ihinner =>
    exact throughout_insert ih ihinner (NameMap.sorted_insert ih.here name _)

section Walk

variable {entry : Entry}

lemma walk_append (names more : List String) (entry : Entry) :
    walk (names ++ more) entry = (walk names entry).bind (walk more) := by
  induction names generalizing entry with
  | nil => rfl
  | cons name names ih =>
    cases entry with
    | component c => rfl
    | space entries =>
      rw [List.cons_append, walk, walk, Option.bind_assoc]
      exact Option.bind_congr fun e _ => ih e

lemma walk_member {entries : List (String × Entry)} (h : NameMap.Sorted entries)
    {e : String × Entry} (he : e ∈ entries) (names : List String) :
    walk (e.1 :: names) (.space entries) = walk names e.2 := by
  have hg : NameMap.get? entries e.1 = some e.2 := NameMap.get?_of_mem (h.imp ne_of_lt) he
  rw [walk, hg, Option.bind_some]

lemma throughout_distinct (h : entry.Throughout NameMap.Sorted) : entry.Throughout DistinctNames :=
  h.imp fun _ hsorted => hsorted.imp ne_of_lt

lemma throughout_keys (h : entry.Throughout NameMap.Sorted)
    (hk : ∀ place name found, walk (place ++ [name]) entry = some found → Path.IsKey name) :
    entry.Throughout KeyNames := by
  induction h with
  | component c => exact .component c
  | space here _ ih =>
    refine .space (fun e he => hk [] e.1 e.2 (walk_member here he [])) fun e he => ih e he ?_
    intro place name found hw
    exact hk (e.1 :: place) name found ((walk_member here he _).trans hw)

lemma mem_leavesAt (h : entry.Throughout NameMap.Sorted) {place : List String}
    {leaf : List String × Component} : leaf ∈ leavesAt place entry ↔
      ∃ names, leaf.1 = place ++ names ∧ walk names entry = some (.component leaf.2) := by
  induction h generalizing place with
  | component c =>
    rw [leavesAt, List.mem_singleton]
    constructor
    · rintro rfl
      exact ⟨[], by simp, rfl⟩
    · rintro ⟨names, hplace, hw⟩
      cases names with
      | nil =>
        obtain rfl := Entry.component.inj (Option.some.inj hw)
        exact Prod.ext (by simpa using hplace) rfl
      | cons name names => exact absurd hw (by simp [walk])
  | @space entries here _ ih =>
    rw [leavesAt, leavesIn_eq_flatMap, List.mem_flatMap]
    constructor
    · rintro ⟨e, he, hl⟩
      obtain ⟨names, hplace, hw⟩ := (ih e he).mp hl
      exact ⟨e.1 :: names, by simpa using hplace, (walk_member here he names).trans hw⟩
    · rintro ⟨names, hplace, hw⟩
      cases names with
      | nil => exact absurd hw (by simp [walk])
      | cons name names =>
        rw [walk, Option.bind_eq_some_iff] at hw
        obtain ⟨inner, hg, hw⟩ := hw
        have he := NameMap.mem_of_get? hg
        exact ⟨(name, inner), he, (ih _ he).mpr ⟨names, by simpa using hplace, hw⟩⟩

end Walk

section Refusal

mutual

def entryFault? (path : Path) : Entry → Option PathError
  | .component _ => none
  | .space entries => entriesFault? path entries

def entriesFault? (path : Path) : List (String × Entry) → Option PathError
  | [] => none
  | (name, entry) :: rest =>
    ((Path.nameFault? (path.child name)).or (entryFault? (path.child name) entry)).or
      (entriesFault? path rest)

end

mutual

lemma flattenEntry_eq_error (path : Path) (flat : FlatRegistry) (entry : Entry) (e : PathError) :
    flattenEntry path flat entry = .error e ↔ entryFault? path entry = some e := by
  match entry with
  | .component c => simp [flattenEntry, entryFault?]
  | .space entries =>
    rw [flattenEntry, entryFault?]
    exact flattenEntries_eq_error path flat entries e

lemma flattenEntries_eq_error (path : Path) (flat : FlatRegistry) (entries : List (String × Entry))
    (e : PathError) :
    flattenEntries path flat entries = .error e ↔ entriesFault? path entries = some e := by
  match entries with
  | [] => simp [flattenEntries, entriesFault?]
  | (name, entry) :: rest =>
    rw [flattenEntries, entriesFault?, Path.nameFault?_child]
    cases Path.checkKey name path with
    | error fault => simp
    | ok _ =>
      have hentry := flattenEntry_eq_error (path.child name) flat entry
      cases hf : flattenEntry (path.child name) flat entry with
      | error fault => simp [(hentry fault).mp hf]
      | ok more =>
        rw [(exists_ok_iff hentry).mp ⟨more, hf⟩]
        exact flattenEntries_eq_error path more rest e

end

lemma entriesFault?_eq_findSome? (path : Path) (entries : List (String × Entry)) :
    entriesFault? path entries = entries.findSome? fun e =>
      (Path.nameFault? (path.child e.1)).or (entryFault? (path.child e.1) e.2) := by
  induction entries with
  | nil => rfl
  | cons e rest ih =>
    rw [entriesFault?, List.findSome?_cons, ih]
    cases (Path.nameFault? (path.child e.1)).or (entryFault? (path.child e.1) e.2) <;> rfl

def foundAt (path : Path) (entry : Entry) (names : List String) : Option PathError :=
  (walk names entry).bind fun _ => Path.nameFault? (path ++ Path.ofNames names)

lemma foundAt_nil (path : Path) (entry : Entry) : foundAt path entry [] = Path.nameFault? path := by
  rw [foundAt, walk, Option.bind_some, Path.ofNames, List.map_nil, List.append_nil]

lemma foundAt_member {entries : List (String × Entry)} (h : NameMap.Sorted entries)
    {e : String × Entry} (he : e ∈ entries) (path : Path) (names : List String) :
    foundAt path (.space entries) (e.1 :: names) = foundAt (path.child e.1) e.2 names := by
  have hpath : path ++ Path.ofNames (e.1 :: names) = path.child e.1 ++ Path.ofNames names := by
    simp [Path.child, Path.ofNames]
  rw [foundAt, walk_member h he, hpath, foundAt]

lemma least_entryFault? {entry : Entry} (h : entry.Throughout NameMap.Sorted) (path : Path) :
    Least (· < ·) (foundAt path entry) ((Path.nameFault? path).or (entryFault? path entry)) := by
  induction h generalizing path with
  | component c =>
    cases hp : Path.nameFault? path with
    | some e => exact least_here ((foundAt_nil path _).trans hp)
    | none =>
      intro names
      cases names with
      | nil => exact (foundAt_nil path _).trans hp
      | cons name names => rfl
  | @space entries here _ ih =>
    cases hp : Path.nameFault? path with
    | some e => exact least_here ((foundAt_nil path _).trans hp)
    | none =>
      rw [entryFault?, Option.none_or, entriesFault?_eq_findSome?]
      apply least_children Prod.fst fun e => foundAt (path.child e.1) e.2
      · exact List.pairwise_map.mp here
      · exact fun e he => ih e he _
      · exact (foundAt_nil path _).trans hp
      · exact fun e he names => foundAt_member here he path names
      · intro name hn names
        rw [foundAt, walk]
        cases hg : NameMap.get? entries name with
        | none => rfl
        | some inner => exact absurd rfl (hn _ (NameMap.mem_of_get? hg))

lemma foundAt_eq_some {entry : Entry} {names : List String} {e : PathError} :
    foundAt [] entry names = some e ↔ ∃ place name found, names = place ++ [name] ∧
      walk names entry = some found ∧ Path.Misnamed (Path.ofNames place) name e := by
  rw [foundAt, Option.bind_eq_some_iff, List.nil_append]
  constructor
  · rintro ⟨found, hw, hf⟩
    cases names using List.reverseRecOn with
    | nil => exact absurd hf (by simp [Path.ofNames])
    | append_singleton place name =>
      rw [← Path.child_ofNames] at hf
      exact ⟨place, name, found, rfl, hw, Path.nameFault?_child_eq_some.mp hf⟩
  · rintro ⟨place, name, found, rfl, hw, hm⟩
    rw [← Path.child_ofNames]
    exact ⟨found, hw, Path.nameFault?_child_eq_some.mpr hm⟩

lemma foundAt_eq_none {entry : Entry} {names : List String} :
    foundAt [] entry names = none ↔ ∀ place name found, names = place ++ [name] →
      walk names entry = some found → Path.IsKey name := by
  rw [foundAt, Option.bind_eq_none_iff, List.nil_append]
  constructor
  · rintro hf place name found rfl hw
    have hnone := hf found hw
    rw [← Path.child_ofNames] at hnone
    exact Path.nameFault?_child_eq_none.mp hnone
  · intro hk found hw
    cases names using List.reverseRecOn with
    | nil => rfl
    | append_singleton place name =>
      rw [← Path.child_ofNames]
      exact Path.nameFault?_child_eq_none.mpr (hk place name found rfl hw)

lemma flatten_eq_error {registry : Registry} {e : RegistryError} :
    registry.flatten = .error e ↔
      (entryFault? [] (.space registry)).map RegistryError.invalidName = some e := by
  rw [flatten, entryFault?, Option.map_eq_some_iff]
  have hentries := flattenEntries_eq_error [] [] registry
  cases hf : flattenEntries [] [] registry with
  | error fault => simp [(hentries fault).mp hf, Except.mapError]
  | ok flat => simp [(exists_ok_iff hentries).mp ⟨flat, hf⟩, Except.mapError]

end Refusal

section Pieces

lemma dotted_pieces (name : String) : Path.dotted (pieces name) = name := by
  apply String.toList_injective
  have hid : String.toList ∘ String.ofList = id := funext fun _ => String.toList_ofList
  rw [Path.dotted, pieces, String.toList_intercalate, List.map_map, hid, List.map_id]
  exact List.intercalate_splitOn '.'

lemma pieces_dotted {names : List String} (hne : names ≠ []) (h : ∀ n ∈ names, Path.IsKey n) :
    pieces (Path.dotted names) = names := by
  have hdots : ∀ cs ∈ names.map String.toList, '.' ∉ cs := by
    intro cs hcs
    obtain ⟨n, hn, rfl⟩ := List.mem_map.mp hcs
    intro hdot
    exact absurd ((h n hn).2 '.' hdot) (by decide)
  have hs : List.splitOn '.' (".".toList.intercalate (names.map String.toList)) =
      names.map String.toList := List.splitOn_intercalate '.' hdots (by simpa using hne)
  have hid : String.ofList ∘ String.toList = id := funext fun _ => String.ofList_toList
  rw [pieces, Path.dotted, String.toList_intercalate, hs, List.map_map, hid, List.map_id]

lemma pieces_append (name rest : String) :
    pieces (name ++ "." ++ rest) = pieces name ++ pieces rest := by
  have hl : (name ++ "." ++ rest).toList = name.toList ++ '.' :: rest.toList := by simp
  rw [pieces, hl, List.splitOn_append_cons_self, List.map_append, pieces, pieces]

lemma pieces_ne_nil (name : String) : pieces name ≠ [] := by
  simp [pieces]

end Pieces

section Flat

variable {registry : Registry} {flat : FlatRegistry}

def componentPlaces (registry : Registry) : Set (List String) :=
  {place | ∃ c, walk place (.space registry) = some (.component c)}

lemma mem_flat_iff (h : (Entry.space registry).Throughout NameMap.Sorted)
    (hk : (Entry.space registry).Throughout KeyNames)
    (hp : flat.Perm ((leavesIn [] registry).map dottedLeaf)) {name : String} {c : Component} :
    (name, c) ∈ flat ↔ walk (pieces name) (.space registry) = some (.component c) := by
  rw [hp.mem_iff, List.mem_map]
  constructor
  · rintro ⟨leaf, hl, he⟩
    obtain ⟨rfl, rfl⟩ := Prod.mk.inj he
    have hkeys := isKey_of_mem_leavesAt hk (by simp) hl
    rw [pieces_dotted (ne_nil_of_mem_leavesIn hl) hkeys]
    obtain ⟨names, hplace, hw⟩ := (mem_leavesAt h).mp hl
    rwa [hplace]
  · intro hw
    refine ⟨(pieces name, c), (mem_leavesAt h).mpr ⟨pieces name, rfl, hw⟩, ?_⟩
    rw [dottedLeaf, dotted_pieces]

lemma ncard_componentPlaces (h : (Entry.space registry).Throughout NameMap.Sorted) :
    (componentPlaces registry).ncard = (leavesIn [] registry).length := by
  have hset : componentPlaces registry = ((leavesIn [] registry).map Prod.fst).toFinset := by
    ext place
    rw [List.coe_toFinset, Set.mem_ofPred_eq, List.mem_map]
    constructor
    · rintro ⟨c, hw⟩
      exact ⟨(place, c), (mem_leavesAt h).mpr ⟨place, rfl, hw⟩, rfl⟩
    · rintro ⟨leaf, hl, rfl⟩
      obtain ⟨names, hplace, hw⟩ := (mem_leavesAt h).mp hl
      exact ⟨leaf.2, by rwa [hplace]⟩
  have hnodup : ((leavesIn [] registry).map Prod.fst).Nodup :=
    nodup_leavesAt (throughout_distinct h) []
  rw [hset, Set.ncard_coe_finset, List.toFinset_card_of_nodup hnodup, List.length_map]

lemma dotted_prefix_free (h : ∀ name c, NameMap.get? flat name = some c ↔
      walk (pieces name) (.space registry) = some (.component c)) {name : String}
    (hn : NameMap.contains flat name = true) (rest : String) :
    NameMap.contains flat (name ++ "." ++ rest) = false := by
  obtain ⟨c, hc⟩ := Option.isSome_iff_exists.mp hn
  rw [NameMap.contains, Option.isSome_eq_false_iff, Option.isNone_iff_eq_none,
    Option.eq_none_iff_forall_ne_some]
  intro c' hc'
  have hw := (h _ _).mp hc'
  -- A component stands where the shorter name ends, and no name leads through it.
  rw [pieces_append, walk_append, (h _ _).mp hc, Option.bind_some] at hw
  obtain ⟨piece, more, hp⟩ := List.exists_cons_of_ne_nil (pieces_ne_nil rest)
  rw [hp] at hw
  exact absurd hw (by simp [walk])

end Flat

/-- A registry is flattened exactly if all names that spaces lead to can stand in a path, and otherwise
refused for the first that cannot, in the order of the bytes. A name of the flat registry has the component
to which its pieces lead in the nested one, and no name goes on behind another. -/
theorem flatten_walks {registry : Registry} (h : Built registry) :
    ((∃ flat, registry.flatten = .ok flat) ↔ ∀ place name entry,
      walk (place ++ [name]) (.space registry) = some entry → Path.IsKey name) ∧
    (∀ e, registry.flatten = .error e ↔ ∃ place name entry fault,
      walk (place ++ [name]) (.space registry) = some entry ∧
      Path.Misnamed (Path.ofNames place) name fault ∧ e = .invalidName fault ∧
      ∀ before other found,
        List.Lex (fun s t => bytes s < bytes t) (before ++ [other]) (place ++ [name]) →
        walk (before ++ [other]) (.space registry) = some found → Path.IsKey other) ∧
    ∀ flat, registry.flatten = .ok flat →
      (∀ name c, NameMap.get? flat name = some c ↔
        walk (pieces name) (.space registry) = some (.component c)) ∧
      flat.length = (componentPlaces registry).ncard ∧
      ∀ name, NameMap.contains flat name = true →
        ∀ rest, NameMap.contains flat (name ++ "." ++ rest) = false := by
  have hsorted := h.sorted
  have hleast := least_entryFault? hsorted []
  rw [Path.nameFault?_nil, Option.none_or] at hleast
  have hok : (∃ flat, registry.flatten = .ok flat) ↔ ∀ place name entry,
      walk (place ++ [name]) (.space registry) = some entry → Path.IsKey name := by
    rw [exists_ok_iff fun e => flatten_eq_error, Option.map_eq_none_iff, hleast.eq_none_iff]
    constructor
    · intro hnone place name entry hw
      exact foundAt_eq_none.mp (hnone _) place name entry rfl hw
    · intro hk names
      apply foundAt_eq_none.mpr
      rintro place name entry rfl hw
      exact hk place name entry hw
  refine ⟨hok, fun e => ?_, fun flat hflat => ?_⟩
  · rw [flatten_eq_error, Option.map_eq_some_iff, bytes_lt_eq]
    simp only [hleast.eq_some_iff, foundAt_eq_some, foundAt_eq_none]
    constructor
    · rintro ⟨fault, ⟨_, ⟨place, name, entry, rfl, hw, hm⟩, hbefore⟩, rfl⟩
      refine ⟨place, name, entry, fault, hw, hm, rfl, ?_⟩
      intro before other found hlex hfound
      exact hbefore _ hlex before other found rfl hfound
    · rintro ⟨place, name, entry, fault, hw, hm, rfl, hbefore⟩
      refine ⟨fault, ⟨_, ⟨place, name, entry, rfl, hw, hm⟩, ?_⟩, rfl⟩
      rintro _ hlex before other found rfl hfound
      exact hbefore before other found hlex hfound
  · have hkeys := throughout_keys hsorted (hok.mp ⟨flat, hflat⟩)
    obtain ⟨other, hother, hd, hp⟩ := flatten_perm ⟨hkeys, throughout_distinct hsorted⟩
    obtain rfl := Except.ok.inj (hflat.symm.trans hother)
    have hget : ∀ name c, NameMap.get? flat name = some c ↔
        walk (pieces name) (.space registry) = some (.component c) := by
      intro name c
      rw [← mem_flat_iff hsorted hkeys hp]
      exact ⟨NameMap.mem_of_get?, NameMap.get?_of_mem hd⟩
    refine ⟨hget, ?_, fun name hn => dotted_prefix_free hget hn⟩
    rw [ncard_componentPlaces hsorted, hp.length_eq, List.length_map]

def wing : Registry :=
  NameMap.insert "Card" (.component (.host "Card" []))
    (NameMap.insert "Box" (.component (.host "Inner" [])) [])

def house : Registry :=
  NameMap.insert "Box" (.component (.adapter "Root" (.host "Box" []) []))
    (NameMap.insert "ui" (.space wing) (NameMap.insert "ui" (.component (.host "Old" [])) []))

def houseFlat : FlatRegistry :=
  [("Box", .adapter "Root" (.host "Box" []) []), ("ui.Box", .host "Inner" []),
    ("ui.Card", .host "Card" [])]

def cracked : Registry :=
  NameMap.insert "z]" (.space wing) (NameMap.insert "ui" (.space (NameMap.insert "a.b" (.space [])
    (NameMap.insert "" (.component (.host "Empty" [])) wing))) [])

lemma built_wing : Built wing :=
  .component "Card" _ (.component "Box" _ .empty)

lemma built_house : Built house :=
  .component "Box" _ (.space "ui" (.component "ui" _ .empty) built_wing)

lemma built_cracked : Built cracked :=
  .space "z]" (.space "ui" .empty (.space "a.b" (.component "" _ built_wing) .empty)) built_wing

theorem flatten_walks_house :
    Built house ∧ house.flatten = .ok houseFlat ∧
    walk (pieces "ui.Card") (.space house) = some (.component (.host "Card" [])) ∧
    (componentPlaces house).ncard = 3 ∧
    (∀ rest, NameMap.contains houseFlat ("ui.Card" ++ "." ++ rest) = false) ∧
    Built cracked ∧ cracked.flatten = .error (.invalidName (.emptyKey [.key "ui"])) ∧
    ∃ place name entry, walk (place ++ [name]) (.space cracked) = some entry ∧
      Path.Misnamed (Path.ofNames place) name (.emptyKey [.key "ui"]) := by
  have hflat : house.flatten = .ok houseFlat := rfl
  have hfault : cracked.flatten = .error (.invalidName (.emptyKey [.key "ui"])) := rfl
  obtain ⟨hget, hsize, hfree⟩ := (flatten_walks built_house).2.2 houseFlat hflat
  obtain ⟨place, name, entry, fault, hw, hm, he, _⟩ := ((flatten_walks built_cracked).2.1 _).mp hfault
  obtain rfl := RegistryError.invalidName.inj he
  exact ⟨built_house, hflat, (hget _ _).mp rfl, hsize.symm, hfree "ui.Card" rfl, built_cracked, hfault,
    place, name, entry, hw, hm⟩

end TreeMarkup.Registry
