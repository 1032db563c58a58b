import Mathlib.Data.List.Permutation
import TreeMarkup.Registry
import TreeMarkup.Proofs.Path.Text

namespace TreeMarkup

namespace Entry

inductive Throughout (P : List (String × Entry) → Prop) : Entry → Prop
  | component (c : Component) : Throughout P (.component c)
  | space {entries : List (String × Entry)} (here : P entries)
      (below : ∀ e ∈ entries, Throughout P e.2) : Throughout P (.space entries)

lemma Throughout.here {P : List (String × Entry) → Prop} {entries : List (String × Entry)}
    (h : (Entry.space entries).Throughout P) : P entries := by
  cases h with
  | space here below => exact here

lemma Throughout.imp {P Q : List (String × Entry) → Prop} (hpq : ∀ entries, P entries → Q entries)
    {entry : Entry} (h : entry.Throughout P) : entry.Throughout Q := by
  induction h with
  | component c => exact .component c
  | space here _ ih => exact .space (hpq _ here) ih

end Entry

namespace Registry

def KeyNames (entries : List (String × Entry)) : Prop :=
  ∀ e ∈ entries, Path.IsKey e.1

def DistinctNames (entries : List (String × Entry)) : Prop :=
  (NameMap.names entries).Nodup

structure Tidy (entry : Entry) : Prop where
  keys : entry.Throughout KeyNames
  distinct : entry.Throughout DistinctNames

mutual

def leavesAt (place : List String) : Entry → List (List String × Component)
  | .component c => [(place, c)]
  | .space entries => leavesIn place entries

def leavesIn (place : List String) : List (String × Entry) → List (List String × Component)
  | [] => []
  | (name, entry) :: rest => leavesAt (place ++ [name]) entry ++ leavesIn place rest

end

def dottedLeaf (leaf : List String × Component) : String × Component :=
  (Path.dotted leaf.1, leaf.2)

def insertAll (flat : FlatRegistry) (entries : List (String × Component)) : FlatRegistry :=
  entries.foldl (fun flat e => NameMap.insert e.1 e.2 flat) flat

lemma leavesIn_eq_flatMap (place : List String) (entries : List (String × Entry)) :
    leavesIn place entries = entries.flatMap fun e => leavesAt (place ++ [e.1]) e.2 := by
  induction entries with
  | nil => rfl
  | cons e rest ih => rw [leavesIn, ih, List.flatMap_cons]

lemma insertAll_append (flat : FlatRegistry) (first more : List (String × Component)) :
    insertAll flat (first ++ more) = insertAll (insertAll flat first) more :=
  List.foldl_append

lemma insertAll_perm {flat : FlatRegistry} {entries : List (String × Component)}
    (h : (entries.map Prod.fst ++ NameMap.names flat).Nodup) :
    (insertAll flat entries).Perm (entries ++ flat) := by
  induction entries generalizing flat with
  | nil => exact List.Perm.refl _
  | cons e rest ih =>
    obtain ⟨name, component⟩ := e
    obtain ⟨hname, hrest⟩ := List.nodup_cons.mp h
    have hn : name ∉ NameMap.names flat := fun hm => hname (List.mem_append_right _ hm)
    have hi := NameMap.insert_perm hn component
    have hp : (rest.map Prod.fst ++ NameMap.names (NameMap.insert name component flat)).Perm
        (name :: (rest.map Prod.fst ++ NameMap.names flat)) :=
      ((hi.map Prod.fst).append_left _).trans List.perm_middle
    have hr := ih (hp.nodup_iff.mpr h)
    exact hr.trans ((hi.append_left rest).trans List.perm_middle)

section Insert

variable {entries : List (String × Entry)} {name : String} {entry : Entry}

lemma throughout_insert {P : List (String × Entry) → Prop} (h : (Entry.space entries).Throughout P)
    (he : entry.Throughout P) (hp : P (NameMap.insert name entry entries)) :
    (Entry.space (NameMap.insert name entry entries)).Throughout P := by
  cases h with
  | space here below =>
    refine .space hp fun e hm => ?_
    rcases NameMap.mem_insert hm with rfl | hm
    · exact he
    · exact below e hm

lemma names_insert_perm (hfree : name ∉ NameMap.names entries) :
    (NameMap.names (NameMap.insert name entry entries)).Perm (name :: NameMap.names entries) :=
  (NameMap.insert_perm hfree entry).map Prod.fst

lemma keyNames_insert (h : KeyNames entries) (hk : Path.IsKey name) :
    KeyNames (NameMap.insert name entry entries) := by
  intro e hm
  rcases NameMap.mem_insert hm with rfl | hm
  · exact hk
  · exact h e hm

lemma distinctNames_insert (hfree : name ∉ NameMap.names entries) (h : DistinctNames entries) :
    DistinctNames (NameMap.insert name entry entries) :=
  (names_insert_perm hfree).nodup_iff.mpr (List.nodup_cons.mpr ⟨hfree, h⟩)

lemma tidy_empty : Tidy (.space []) :=
  ⟨.space (fun _ he => absurd he List.not_mem_nil) fun _ he => absurd he List.not_mem_nil,
    .space List.nodup_nil fun _ he => absurd he List.not_mem_nil⟩

lemma Tidy.insert (h : Tidy (.space entries)) (he : Tidy entry) (hk : Path.IsKey name)
    (hfree : name ∉ NameMap.names entries) : Tidy (.space (NameMap.insert name entry entries)) :=
  ⟨throughout_insert h.keys he.keys (keyNames_insert h.keys.here hk),
    throughout_insert h.distinct he.distinct (distinctNames_insert hfree h.distinct.here)⟩

lemma leavesIn_insert (hfree : name ∉ NameMap.names entries) (place : List String) :
    (leavesIn place (NameMap.insert name entry entries)).Perm
      (leavesAt (place ++ [name]) entry ++ leavesIn place entries) := by
  have hp := (NameMap.insert_perm hfree entry).flatMap_right
    fun e => leavesAt (place ++ [e.1]) e.2
  rw [leavesIn_eq_flatMap, leavesIn_eq_flatMap]
  exact hp

end Insert

section Names

lemma prefix_of_mem_leavesAt {entry : Entry} {place : List String} {leaf : List String × Component}
    (h : leaf ∈ leavesAt place entry) : place <+: leaf.1 := by
  match entry with
  | .component c =>
    obtain rfl := List.mem_singleton.mp h
    exact List.prefix_rfl
  | .space [] => exact absurd h List.not_mem_nil
  | .space ((name, entry) :: rest) =>
    rcases List.mem_append.mp h with h | h
    · exact (List.prefix_append place [name]).trans (prefix_of_mem_leavesAt h)
    · have hr : leaf ∈ leavesAt place (.space rest) := h
      exact prefix_of_mem_leavesAt hr

lemma isKey_of_mem_leavesAt {entry : Entry} (h : entry.Throughout KeyNames) {place : List String}
    (hp : ∀ n ∈ place, Path.IsKey n) {leaf : List String × Component}
    (hl : leaf ∈ leavesAt place entry) : ∀ n ∈ leaf.1, Path.IsKey n := by
  induction h generalizing place with
  | component c =>
    rw [List.mem_singleton.mp hl]
    exact hp
  | space here below ih =>
    rw [leavesAt, leavesIn_eq_flatMap] at hl
    obtain ⟨e, he, hl⟩ := List.mem_flatMap.mp hl
    apply ih e he _ hl
    exact List.forall_mem_append.mpr ⟨hp, List.forall_mem_singleton.mpr (here e he)⟩

lemma nodup_leavesAt {entry : Entry} (h : entry.Throughout DistinctNames) (place : List String) :
    ((leavesAt place entry).map Prod.fst).Nodup := by
  induction h generalizing place with
  | component c => exact List.nodup_singleton _
  | @space entries here below ih =>
    rw [leavesAt, leavesIn_eq_flatMap, List.map_flatMap, List.nodup_flatMap]
    refine ⟨fun e he => ih e he _, ?_⟩
    -- Places in two different entries part at the name of the entry.
    apply (List.pairwise_map.mp here).imp
    intro e f hne
    rw [Function.onFun, List.disjoint_left]
    intro names he hf
    obtain ⟨l, hl, rfl⟩ := List.mem_map.mp he
    obtain ⟨m, hm, heq⟩ := List.mem_map.mp hf
    have hpl := prefix_of_mem_leavesAt hl
    have hpm := prefix_of_mem_leavesAt hm
    rw [heq] at hpm
    have hlen : (place ++ [e.1]).length = (place ++ [f.1]).length := by simp
    have hsame := (List.prefix_of_prefix_length_le hpl hpm (Nat.le_of_eq hlen)).eq_of_length hlen
    exact hne (by simpa using hsame)

lemma ne_nil_of_mem_leavesIn {registry : Registry} {leaf : List String × Component}
    (h : leaf ∈ leavesIn [] registry) : leaf.1 ≠ [] := by
  rw [leavesIn_eq_flatMap] at h
  obtain ⟨e, _, hl⟩ := List.mem_flatMap.mp h
  exact (prefix_of_mem_leavesAt hl).ne_nil (by simp)

end Names

section Flatten

lemma flattenEntries_of {place : List String} {entries : List (String × Entry)}
    (hk : KeyNames entries)
    (h : ∀ e ∈ entries, ∀ flat, flattenEntry (Path.ofNames (place ++ [e.1])) flat e.2 =
      .ok (insertAll flat ((leavesAt (place ++ [e.1]) e.2).map dottedLeaf)))
    (flat : FlatRegistry) :
    flattenEntries (Path.ofNames place) flat entries =
      .ok (insertAll flat ((leavesIn place entries).map dottedLeaf)) := by
  induction entries generalizing flat with
  | nil => rfl
  | cons e rest ih =>
    obtain ⟨name, entry⟩ := e
    obtain ⟨hname, hrest⟩ := List.forall_mem_cons.mp hk
    obtain ⟨hentry, hentries⟩ := List.forall_mem_cons.mp h
    have hc := (Path.checkKey_eq_ok name (Path.ofNames place)).mpr hname
    simp only [flattenEntries, hc, Path.child_ofNames, hentry, ih hrest hentries]
    rw [leavesIn, List.map_append, insertAll_append]

lemma flattenEntry_eq {entry : Entry} (h : entry.Throughout KeyNames) (place : List String)
    (flat : FlatRegistry) : flattenEntry (Path.ofNames place) flat entry =
      .ok (insertAll flat ((leavesAt place entry).map dottedLeaf)) := by
  induction h generalizing place flat with
  | component c => rw [flattenEntry, Path.text_ofNames]; rfl
  | space here below ih => exact flattenEntries_of here (fun e he flat => ih e he _ flat) flat

end Flatten

lemma nodup_dottedLeaves {registry : Registry} (h : Tidy (.space registry)) :
    (((leavesIn [] registry).map dottedLeaf).map Prod.fst).Nodup := by
  have hplaces : ((leavesIn [] registry).map Prod.fst).Nodup := nodup_leavesAt h.distinct []
  rw [List.map_map]
  apply List.Nodup.map_on ?_ (List.Nodup.of_map _ hplaces)
  intro l hl m hm he
  have hsame := Path.dotted_injective (ne_nil_of_mem_leavesIn hl) (ne_nil_of_mem_leavesIn hm)
    (isKey_of_mem_leavesAt h.keys (by simp) hl) (isKey_of_mem_leavesAt h.keys (by simp) hm) he
  exact List.inj_on_of_nodup_map hplaces hl hm hsame

/-- Flattening loses no component and joins no two names. -/
lemma flatten_perm {registry : Registry} (h : Tidy (.space registry)) :
    ∃ flat : FlatRegistry, registry.flatten = .ok flat ∧ (NameMap.names flat).Nodup ∧
      flat.Perm ((leavesIn [] registry).map dottedLeaf) := by
  have hflat : flattenEntries [] [] registry = _ := flattenEntry_eq h.keys [] []
  have hnames := nodup_dottedLeaves h
  have hfree : (((leavesIn [] registry).map dottedLeaf).map Prod.fst ++
      NameMap.names ([] : FlatRegistry)).Nodup := by
    rwa [NameMap.names, List.map_nil, List.append_nil]
  have hp := insertAll_perm hfree
  rw [List.append_nil] at hp
  refine ⟨_, ?_, (hp.map Prod.fst).nodup_iff.mpr hnames, hp⟩
  rw [flatten, hflat]
  rfl

end Registry
end TreeMarkup
