import TreeMarkup.Proofs.FlatTree.Domain
import TreeMarkup.Proofs.Order.Least

/-! A tree without a flat form is refused for the first fault in the order of its text. The numbers of the
children that lead to a value, compared lexicographically, give this order. -/

namespace TreeMarkup

namespace Json

def children : Json → List (Step × Json)
  | .object members => members.map fun m => (.key m.1, m.2)
  | .array items => items.toList.zipIdx.map fun x => (.index x.2, x.1)
  | _ => []

def reached (path : Path) : List Nat → Json → Option (Path × Json)
  | [], value => some (path, value)
  | n :: route, value => value.children[n]?.bind fun c => reached (path ++ [c.1]) route c.2

inductive Nested (value : Json) : Json → Prop
  | self : Nested value value
  | inside {whole : Json} {c : Step × Json} : c ∈ whole.children → Nested value c.2 →
      Nested value whole

variable {value whole : Json}

lemma child_of_member {m : String × Json} (h : m ∈ value.members) :
    (.key m.1, m.2) ∈ value.children := by
  cases value with
  | object members => exact List.mem_map_of_mem h
  | _ => exact absurd h List.not_mem_nil

lemma exists_child_of_item {x : Json} (h : x ∈ value.items) : ∃ i, (.index i, x) ∈ value.children := by
  cases value with
  | array items =>
    obtain ⟨i, hi⟩ := List.mem_iff_getElem?.mp (Array.mem_toList_iff.mpr h)
    have hm : (x, i) ∈ items.toList.zipIdx := List.mem_zipIdx_iff_getElem?.mpr hi
    exact ⟨i, List.mem_map_of_mem hm⟩
  | _ => exact absurd h (Array.not_mem_empty x)

lemma mem_of_child {c : Step × Json} (h : c ∈ value.children) :
    (∃ m ∈ value.members, c.2 = m.2) ∨ c.2 ∈ value.items := by
  cases value with
  | object members =>
    obtain ⟨m, hm, rfl⟩ := List.mem_map.mp h
    exact Or.inl ⟨m, hm, rfl⟩
  | array items =>
    obtain ⟨x, hx, rfl⟩ := List.mem_map.mp h
    exact Or.inr (Array.mem_toList_iff.mp (List.fst_mem_of_mem_zipIdx hx))
  | _ => exact absurd h List.not_mem_nil

lemma sizeOf_child_lt {c : Step × Json} (h : c ∈ value.children) : sizeOf c.2 < sizeOf value := by
  cases value with
  | object members =>
    obtain ⟨m, hm, rfl⟩ := List.mem_map.mp h
    have hlt : sizeOf m < sizeOf members := List.sizeOf_lt_of_mem hm
    cases m
    simp only [Prod.mk.sizeOf_spec, object.sizeOf_spec] at hlt ⊢
    omega
  | array items =>
    obtain ⟨x, hx, rfl⟩ := List.mem_map.mp h
    have hmem : x.1 ∈ items := Array.mem_toList_iff.mp (List.fst_mem_of_mem_zipIdx hx)
    have hlt : sizeOf x.1 < sizeOf items := Array.sizeOf_lt_of_mem hmem
    simp only [array.sizeOf_spec]
    omega
  | _ => exact absurd h List.not_mem_nil

lemma Addressable.nested (hn : Nested value whole) (h : whole.Addressable) : value.Addressable := by
  induction hn with
  | self => exact h
  | inside hc _ ih =>
    obtain ⟨hmembers, _, hitems⟩ := addressable_iff.mp h
    apply ih
    rcases mem_of_child hc with ⟨m, hm, he⟩ | hx
    · exact he ▸ (hmembers m hm).2
    · exact hitems _ hx

lemma addressable_of_nested {whole : Json} (h : ∀ value, Nested value whole →
    (∀ m ∈ value.members, Path.IsKey m.1) ∧ value.items.size ≤ maxIndex + 1) :
    whole.Addressable := by
  have hchild : ∀ c ∈ whole.children, c.2.Addressable := by
    intro c hc
    have hlt := sizeOf_child_lt hc
    exact addressable_of_nested fun value hv => h value (.inside hc hv)
  obtain ⟨hkeys, hsize⟩ := h whole .self
  refine .intro hkeys hsize (fun m hm => hchild _ (child_of_member hm)) ?_
  intro x hx
  obtain ⟨i, hi⟩ := exists_child_of_item hx
  exact hchild _ hi
termination_by sizeOf whole

lemma addressable_iff_nested : whole.Addressable ↔ ∀ value, Nested value whole →
    (∀ m ∈ value.members, Path.IsKey m.1) ∧ value.items.size ≤ maxIndex + 1 := by
  refine ⟨fun h value hv => ?_, addressable_of_nested⟩
  obtain ⟨hkeys, hsize, _, _⟩ := h.nested hv
  exact ⟨hkeys, hsize⟩

end Json

namespace FlatTree

open Json (reached)

def sizeFault? (path : Path) (value : Json) : Option PathError :=
  if maxIndex + 1 < value.items.size then some (.invalid (Path.text path) .tooManyItems) else none

/-- What the value at a path is refused for by itself, its name before its size. -/
inductive Offends : Path → Json → PathError → Prop
  | name {parent : Path} {key : String} {value : Json} {e : PathError} :
      Path.Misnamed parent key e → Offends (parent.child key) value e
  | size {path : Path} {items : Array Json} : (∀ parent key, path = Path.child parent key →
      Path.IsKey key) → maxIndex + 1 < items.size →
      Offends path (.array items) (.invalid path.text .tooManyItems)

lemma offends_iff {path : Path} {value : Json} {e : PathError} :
    Offends path value e ↔ (Path.nameFault? path).or (sizeFault? path value) = some e := by
  rw [Option.or_eq_some_iff]
  constructor
  · rintro (hname | ⟨hkey, hsize⟩)
    · exact Or.inl (Path.nameFault?_child_eq_some.mpr hname)
    · exact Or.inr ⟨Path.nameFault?_eq_none.mpr hkey, if_pos hsize⟩
  · rintro (hname | ⟨hkey, hsize⟩)
    · obtain ⟨parent, key, rfl, hk⟩ := Path.nameFault?_eq_some.mp hname
      exact .name hk
    · rw [sizeFault?] at hsize
      split at hsize
      · next hlt =>
        obtain rfl := Option.some.inj hsize
        cases value with
        | array items => exact .size (Path.nameFault?_eq_none.mp hkey) hlt
        | _ => simp [Json.items] at hlt
      · exact absurd hsize (by simp)

section Search

def childFault? (path : Path) (c : Step × Json) : Option PathError :=
  (Path.nameFault? (path ++ [c.1])).or (fault? (path ++ [c.1]) c.2)

lemma memberFault?_eq_findSome? (path : Path) (members : List (String × Json)) :
    memberFault? path members = (Json.children (.object members)).findSome? (childFault? path) := by
  induction members with
  | nil => rfl
  | cons m rest ih =>
    obtain ⟨key, value⟩ := m
    have hchildren : Json.children (.object ((key, value) :: rest)) =
        (.key key, value) :: Json.children (.object rest) := rfl
    have hfault : childFault? path (.key key, value) =
        (Path.nameFault? (path.child key)).or (fault? (path.child key) value) := rfl
    rw [memberFault?, hchildren, List.findSome?_cons, hfault, Path.nameFault?_child, ih]
    cases Path.checkKey key path with
    | error e => rfl
    | ok _ =>
      rw [Option.none_or]
      cases fault? (path.child key) value <;> rfl

lemma itemFault?_eq_findSome? (path : Path) (i : Nat) (items : List Json) :
    itemFault? path i items =
      (items.zipIdx i).findSome? fun x => childFault? path (.index x.2, x.1) := by
  induction items generalizing i with
  | nil => rfl
  | cons item rest ih =>
    have hfault : childFault? path (.index i, item) =
        (Path.nameFault? (path.index i)).or (fault? (path.index i) item) := rfl
    rw [itemFault?, List.zipIdx_cons, List.findSome?_cons, hfault, Path.nameFault?_index,
      Option.none_or, ih]
    cases fault? (path.index i) item <;> rfl

lemma fault?_eq (path : Path) (value : Json) :
    fault? path value = (sizeFault? path value).or (value.children.findSome? (childFault? path)) := by
  cases value with
  | object members =>
    rw [fault?, memberFault?_eq_findSome?]
    rfl
  | array items =>
    obtain ⟨items⟩ := items
    rw [fault?, sizeFault?, itemFault?_eq_findSome?]
    simp only [Json.items, List.size_toArray]
    split
    · rfl
    · rw [Option.none_or, Json.children, List.findSome?_map]
      rfl
  | _ => rfl

def foundAt (path : Path) (value : Json) (route : List Nat) : Option PathError :=
  (reached path route value).bind fun p => (Path.nameFault? p.1).or (sizeFault? p.1 p.2)

lemma foundAt_cons (path : Path) (value : Json) (n : Nat) (route : List Nat) :
    foundAt path value (n :: route) =
      value.children[n]?.bind fun c => foundAt (path ++ [c.1]) c.2 route := by
  rw [foundAt, reached, Option.bind_assoc]
  rfl

lemma foundAt_eq_some {path : Path} {value : Json} {route : List Nat} {e : PathError} :
    foundAt path value route = some e ↔
      ∃ p v, reached path route value = some (p, v) ∧ Offends p v e := by
  rw [foundAt, Option.bind_eq_some_iff]
  constructor
  · rintro ⟨⟨p, v⟩, hp, he⟩
    exact ⟨p, v, hp, offends_iff.mpr he⟩
  · rintro ⟨p, v, hp, he⟩
    exact ⟨(p, v), hp, offends_iff.mp he⟩

lemma foundAt_eq_none {path : Path} {value : Json} {route : List Nat} :
    foundAt path value route = none ↔
      ∀ p v, reached path route value = some (p, v) → ∀ e, ¬Offends p v e := by
  rw [Option.eq_none_iff_forall_ne_some]
  constructor
  · intro h p v hp e he
    exact h e (foundAt_eq_some.mpr ⟨p, v, hp, he⟩)
  · intro h e he
    obtain ⟨p, v, hp, hoff⟩ := foundAt_eq_some.mp he
    exact h p v hp e hoff

lemma least_fault? (path : Path) (value : Json) :
    Least (· < ·) (foundAt path value) ((Path.nameFault? path).or (fault? path value)) := by
  cases hp : (Path.nameFault? path).or (sizeFault? path value) with
  | some e =>
    rw [fault?_eq, ← Option.or_assoc, hp]
    exact least_here hp
  | none =>
    rw [fault?_eq, ← Option.or_assoc, hp, Option.none_or]
    have hc : value.children.findSome? (childFault? path) =
        value.children.zipIdx.findSome? fun x => childFault? path x.1 := by
      have hm := List.findSome?_map (p := childFault? path) (f := Prod.fst) (l := value.children.zipIdx)
      rwa [List.zipIdx_map_fst] at hm
    rw [hc]
    apply least_children Prod.snd fun x => foundAt (path ++ [x.1.1]) x.1.2
    · rw [← List.pairwise_map, List.zipIdx_map_snd]
      exact List.pairwise_lt_range'
    · intro x hx
      have hlt := Json.sizeOf_child_lt (List.fst_mem_of_mem_zipIdx hx)
      exact least_fault? (path ++ [x.1.1]) x.1.2
    · exact hp
    · intro x hx route
      rw [foundAt_cons, List.mem_zipIdx_iff_getElem?.mp hx, Option.bind_some]
    · intro n hn route
      rw [foundAt_cons]
      cases hg : value.children[n]? with
      | none => rfl
      | some c => exact absurd rfl (hn (c, n) (List.mem_zipIdx_iff_getElem?.mpr hg))
termination_by sizeOf value

end Search

lemma ofTree_eq_error_iff {tree : Json.Members} {e : PathError} :
    ofTree tree = .error e ↔ fault? [] (.object tree) = some e := by
  rw [ofTree, fault?]
  cases memberFault? [] tree <;> simp

/-- A tree has a flat form exactly if all keys in it are keys of paths and all arrays in it are short
enough. Otherwise it is refused for what offends at the least route. -/
theorem ofTree_refuses_first (tree : Json.Members) :
    ((∃ flat, ofTree tree = .ok flat) ↔ ∀ value, Json.Nested value (.object tree) →
      (∀ m ∈ value.members, Path.IsKey m.1) ∧ value.items.size ≤ maxIndex + 1) ∧
    ∀ e, ofTree tree = .error e ↔ ∃ route path value,
      reached [] route (.object tree) = some (path, value) ∧ Offends path value e ∧
      ∀ earlier, List.Lex (· < ·) earlier route → ∀ p v,
        reached [] earlier (.object tree) = some (p, v) → ∀ other, ¬Offends p v other := by
  refine ⟨?_, fun e => ?_⟩
  · rw [exists_ok_iff fun e => ofTree_eq_error_iff, fault?_eq_none, Json.addressable_iff_nested]
  · have hl := least_fault? [] (.object tree)
    rw [Path.nameFault?_nil, Option.none_or] at hl
    rw [ofTree_eq_error_iff, hl.eq_some_iff]
    simp only [foundAt_eq_some, foundAt_eq_none]
    constructor
    · rintro ⟨route, ⟨path, value, hp, he⟩, hearlier⟩
      exact ⟨route, path, value, hp, he, hearlier⟩
    · rintro ⟨route, path, value, hp, he, hearlier⟩
      exact ⟨route, ⟨path, value, hp, he⟩, hearlier⟩

def ledger : Json.Members :=
  [("rows", .object [("a", .array #[.object [], .object [("", .array #[])]]), ("a.b", .null)]),
    ("c]", .null)]

def overfull : Json.Members :=
  [("long", .array (Array.replicate (maxIndex + 2) .null)), ("", .null)]

theorem ofTree_refuses_first_ledger :
    ofTree ledger = .error (.emptyKey [.key "rows", .key "a", .index 1]) ∧
    (∃ route path value, reached [] route (.object ledger) = some (path, value) ∧
      Offends path value (.emptyKey [.key "rows", .key "a", .index 1])) ∧
    ofTree overfull = .error (.invalid "long" .tooManyItems) ∧
    ∃ value, Json.Nested value (.object overfull) ∧ maxIndex + 1 < value.items.size := by
  have hledger : ofTree ledger = .error (.emptyKey [.key "rows", .key "a", .index 1]) := rfl
  obtain ⟨route, path, value, hp, he, _⟩ := ((ofTree_refuses_first ledger).2 _).mp hledger
  have hsize : maxIndex + 1 < (Array.replicate (maxIndex + 2) Json.null).size := by simp
  refine ⟨hledger, ⟨route, path, value, hp, he⟩, ?_, _, .inside List.mem_cons_self .self, hsize⟩
  apply ((ofTree_refuses_first overfull).2 _).mpr
  refine ⟨[0], [.key "long"], .array (Array.replicate (maxIndex + 2) .null), rfl, ?_, ?_⟩
  · exact .size (Path.nameFault?_eq_none.mp rfl) hsize
  · intro earlier hlex p v hp e he
    cases hlex with
    | nil =>
      obtain ⟨rfl, rfl⟩ := Prod.mk.inj (Option.some.inj hp)
      have hfound := offends_iff.mp he
      exact absurd hfound (by simp [sizeFault?, Json.items])
    | rel hlt => exact absurd hlt (Nat.not_lt_zero _)
    | cons hlex => cases hlex

end FlatTree
end TreeMarkup
