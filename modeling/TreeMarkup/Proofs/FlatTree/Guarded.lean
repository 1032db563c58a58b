import TreeMarkup.Proofs.FlatTree.Writing

namespace TreeMarkup.FlatTree

/-- What could go wrong at an entry: its key is no path, an index in its path is out of range, an item is
asked for behind the end of an array, or the root is left as something other than an object. -/
inductive Mishap where
  | unread (error : PathError)
  | outOfRange (key : String)
  | noItem (key : String)
  | noObject (key : String)

def write (key : String) (value : Json) : Path → Json → Except Mishap Json
  | [], _ => .ok value
  | .key name :: rest, slot =>
    (write key value rest ((Fields.get? slot.members name).getD .null)).map fun child =>
      .object (Fields.insert slot.members name child)
  | .index i :: rest, slot =>
    if maxIndex < i then .error (.outOfRange key)
    else
      match (padded (i + 1) slot.items)[i]? with
      | none => .error (.noItem key)
      | some item => (write key value rest item).map fun child =>
        .array ((padded (i + 1) slot.items).setIfInBounds i child)

def writeEach (root : Json.Members) : FlatTree → Except Mishap Json.Members
  | [] => .ok root
  | (key, value) :: rest =>
    match Path.parse key with
    | .error e => .error (.unread e)
    | .ok path =>
      match write key value path (.object root) with
      | .error mishap => .error mishap
      | .ok (.object members) => writeEach members rest
      | .ok _ => .error (.noObject key)

section Write

lemma modify_eq_set {items : Array Json} {i : Nat} {item : Json} (h : items[i]? = some item)
    (f : Json → Json) : items.modify i f = items.setIfInBounds i (f item) := by
  have hi : i < items.size := (Array.getElem?_eq_some_iff.mp h).1
  apply Array.ext_getElem?
  intro j
  rw [Array.getElem?_modify, Array.getElem?_setIfInBounds]
  by_cases hj : i = j
  · subst hj
    rw [if_pos rfl, if_pos rfl, if_pos hi, h, Option.map_some]
  · rw [if_neg hj, if_neg hj]

lemma exists_padded (i : Nat) (items : Array Json) : ∃ item, (padded (i + 1) items)[i]? = some item := by
  have hi : i < (padded (i + 1) items).size := by
    rw [size_padded]
    omega
  exact ⟨_, Array.getElem?_eq_getElem hi⟩

lemma write_eq (key : String) (value : Json) (path : Path) (slot : Json) :
    write key value path slot =
      if path.isBounded then .ok (put value path slot) else .error (.outOfRange key) := by
  induction path generalizing slot with
  | nil => rfl
  | cons s path ih =>
    cases s with
    | key name =>
      have hb : Path.isBounded (.key name :: path) = Path.isBounded path := rfl
      rw [write, ih, hb, put, Fields.alter_eq_insert]
      cases Path.isBounded path <;> rfl
    | index i =>
      have hb : Path.isBounded (.index i :: path) = (decide (i ≤ maxIndex) && Path.isBounded path) := rfl
      rw [write, hb]
      by_cases hi : maxIndex < i
      · have hn : decide (i ≤ maxIndex) = false := decide_eq_false (Nat.not_le.mpr hi)
        rw [if_pos hi, hn]
        rfl
      · obtain ⟨item, hitem⟩ := exists_padded i slot.items
        have hy : decide (i ≤ maxIndex) = true := decide_eq_true (Nat.not_lt.mp hi)
        simp only [if_neg hi, hitem, ih, hy, Bool.true_and, put, modify_eq_set hitem]
        cases Path.isBounded path <;> rfl

end Write

section Run

lemma putAll_object {flat : FlatTree} {members : Json.Members} {root : Json}
    (h : putAll (.object members) flat = .ok root) : ∃ result, root = .object result := by
  induction flat generalizing members with
  | nil => exact ⟨members, (Except.ok.inj h).symm⟩
  | cons entry rest ih =>
    obtain ⟨key, value⟩ := entry
    cases hp : Path.parse key with
    | error e =>
      rw [putAll, hp] at h
      cases h
    | ok path =>
      obtain ⟨result, hr⟩ := put_object (Path.readable_of_parse hp).first value members
      rw [putAll_cons_of_parse hp, hr] at h
      exact ih h

lemma writeEach_eq (members : Json.Members) (flat : FlatTree) :
    writeEach members flat = ((putAll (.object members) flat).map Json.members).mapError .unread := by
  induction flat generalizing members with
  | nil => rfl
  | cons entry rest ih =>
    obtain ⟨key, value⟩ := entry
    cases hp : Path.parse key with
    | error e => simp only [writeEach, putAll, hp, Except.map, Except.mapError]
    | ok path =>
      have hb := Path.isBounded_of_readable (Path.readable_of_parse hp)
      obtain ⟨result, hr⟩ := put_object (Path.readable_of_parse hp).first value members
      rw [putAll_cons_of_parse hp, hr, ← ih]
      simp only [writeEach, hp, write_eq, hb, if_true, hr]

def unread? (entry : String × Json) : Option PathError :=
  match Path.parse entry.1 with
  | .error e => some e
  | .ok _ => none

lemma unread?_eq_some {entry : String × Json} {e : PathError} :
    unread? entry = some e ↔ Path.parse entry.1 = .error e := by
  rw [unread?]
  cases Path.parse entry.1 <;> simp

lemma unread?_eq_none {entry : String × Json} :
    unread? entry = none ↔ ∃ path, Path.parse entry.1 = .ok path := by
  rw [unread?]
  cases Path.parse entry.1 <;> simp

lemma putAll_eq_error {tree : Json} {flat : FlatTree} {e : PathError} :
    putAll tree flat = .error e ↔ flat.findSome? unread? = some e := by
  induction flat generalizing tree with
  | nil => simp [putAll]
  | cons entry rest ih =>
    obtain ⟨key, value⟩ := entry
    rw [List.findSome?_cons, unread?]
    cases hp : Path.parse key with
    | error found => simp [putAll, hp]
    | ok path => rw [putAll_cons_of_parse hp, ih]

lemma toTree_eq_error {flat : FlatTree} {e : PathError} :
    toTree flat = .error e ↔ flat.findSome? unread? = some e := by
  rw [← @putAll_eq_error (.object []), toTree]
  cases putAll (.object []) flat <;> simp [Except.map]

end Run

/-- A flat tree can be read back exactly if all its keys are paths, and is refused for the first key that is
none. No index is out of range, no item is missing and the root is an object after every entry. -/
theorem toTree_fails_only_unread (flat : FlatTree) :
    ((∃ tree, toTree flat = .ok tree) ↔
      ∀ key ∈ Fields.names flat, ∃ path, Path.parse key = .ok path) ∧
    (∀ e, toTree flat = .error e ↔ ∃ before entry after, flat = before ++ entry :: after ∧
      (∀ earlier ∈ before, ∃ path, Path.parse earlier.1 = .ok path) ∧
      Path.parse entry.1 = .error e) ∧
    writeEach [] flat = (toTree flat).mapError .unread ∧
    ∀ before root, before <+: flat → putAll (.object []) before = .ok root →
      ∃ members, root = .object members := by
  refine ⟨?_, fun e => ?_, writeEach_eq [] flat, fun before root _ h => putAll_object h⟩
  · rw [exists_ok_iff fun e => toTree_eq_error, List.findSome?_eq_none_iff]
    simp only [unread?_eq_none, Fields.names, List.forall_mem_map]
  · simp only [toTree_eq_error, List.findSome?_eq_some_iff, unread?_eq_some, unread?_eq_none]
    constructor
    · rintro ⟨before, entry, after, hs, he, hb⟩
      exact ⟨before, entry, after, hs, hb, he⟩
    · rintro ⟨before, entry, after, hs, hb, he⟩
      exact ⟨before, entry, after, hs, he, hb⟩

def bins : FlatTree :=
  [("a", .array #[.object [("k", .null)]]), ("a.b[2]", .object [("c.d", .bool true)]), ("a[1]", .null),
    ("b[", .null), ("", .null)]

theorem toTree_fails_only_unread_bins :
    toTree bins = .error (.invalid "b[" .unterminated) ∧
    writeEach [] bins = .error (.unread (.invalid "b[" .unterminated)) ∧
    (∃ before entry after, bins = before ++ entry :: after ∧
      (∀ earlier ∈ before, ∃ path, Path.parse earlier.1 = .ok path) ∧
      Path.parse entry.1 = .error (.invalid "b[" .unterminated)) ∧
    bins.take 3 <+: bins ∧ putAll (.object []) (bins.take 3) = .ok (.object [("a", .array #[.null, .null])]) ∧
    ∃ members, Json.object [("a", .array #[.null, .null])] = .object members := by
  have hbins : toTree bins = .error (.invalid "b[" .unterminated) := rfl
  have htake : putAll (.object []) (bins.take 3) = .ok (.object [("a", .array #[.null, .null])]) := rfl
  obtain ⟨_, herror, hguarded, hroot⟩ := toTree_fails_only_unread bins
  have hprefix : bins.take 3 <+: bins := List.take_prefix 3 bins
  refine ⟨hbins, ?_, (herror _).mp hbins, hprefix, htake, hroot _ _ hprefix htake⟩
  rw [hguarded, hbins]
  rfl

end TreeMarkup.FlatTree
