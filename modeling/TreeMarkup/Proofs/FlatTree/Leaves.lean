import Mathlib.Data.List.Nodup
import TreeMarkup.FlatTree
import TreeMarkup.Proofs.Path.Text

namespace TreeMarkup

namespace Json

def at? : Path → Json → Option Json
  | [], value => some value
  | .key name :: rest, .object members => (Fields.get? members name).bind (at? rest)
  | .index i :: rest, .array items => items[i]?.bind (at? rest)
  | _, _ => none

def IsLeaf : Json → Prop
  | .object members => members = []
  | .array items => items = #[]
  | _ => True

@[simp] lemma isLeaf_object (ms : List (String × Json)) : (Json.object ms).IsLeaf ↔ ms = [] :=
  Iff.rfl

@[simp] lemma isLeaf_array (xs : Array Json) : (Json.array xs).IsLeaf ↔ xs = #[] :=
  Iff.rfl

@[simp] lemma isLeaf_null : Json.null.IsLeaf := trivial

@[simp] lemma isLeaf_bool (b : Bool) : (Json.bool b).IsLeaf := trivial

@[simp] lemma isLeaf_number (n : Number) : (Json.number n).IsLeaf := trivial

@[simp] lemma isLeaf_string (s : String) : (Json.string s).IsLeaf := trivial

mutual

/-- No object in the value names a member twice. -/
def Regular : Json → Prop
  | .object members => Fields.Distinct members ∧ RegularMembers members
  | .array ⟨items⟩ => RegularItems items
  | _ => True

def RegularMembers : List (String × Json) → Prop
  | [] => True
  | (_, value) :: rest => Regular value ∧ RegularMembers rest

def RegularItems : List Json → Prop
  | [] => True
  | item :: rest => Regular item ∧ RegularItems rest

end

end Json

namespace FlatTree

def below (s : Step) (leaf : Path × Json) : Path × Json :=
  (s :: leaf.1, leaf.2)

mutual

def leavesOf : Json → List (Path × Json)
  | .object members => if members.isEmpty then [([], .object [])] else memberLeaves members
  | .array ⟨items⟩ => if items.isEmpty then [([], .array #[])] else itemLeaves 0 items
  | leaf => [([], leaf)]

def memberLeaves : List (String × Json) → List (Path × Json)
  | [] => []
  | (name, value) :: rest => (leavesOf value).map (below (.key name)) ++ memberLeaves rest

def itemLeaves (i : Nat) : List Json → List (Path × Json)
  | [] => []
  | item :: rest => (leavesOf item).map (below (.index i)) ++ itemLeaves (i + 1) rest

end

def under (path : Path) (leaf : Path × Json) : Path × Json :=
  (path ++ leaf.1, leaf.2)

lemma map_under_below (path : Path) (s : Step) (ls : List (Path × Json)) :
    (ls.map (below s)).map (under path) = ls.map (under (path ++ [s])) := by
  simp [under, below, Function.comp_def]

mutual

lemma pushLeaves_toList (path : Path) (acc : Array (Path × Json)) (value : Json) :
    (pushLeaves path acc value).toList = acc.toList ++ (leavesOf value).map (under path) := by
  match value with
  | .object [] => simp [pushLeaves, leavesOf, under]
  | .object (m :: ms) => simpa [pushLeaves, leavesOf] using pushMembers_toList path acc (m :: ms)
  | .array ⟨[]⟩ => simp [pushLeaves, leavesOf, under]
  | .array ⟨x :: xs⟩ => simpa [pushLeaves, leavesOf] using pushItems_toList path 0 acc (x :: xs)
  | .null => simp [pushLeaves, leavesOf, under]
  | .bool _ => simp [pushLeaves, leavesOf, under]
  | .number _ => simp [pushLeaves, leavesOf, under]
  | .string _ => simp [pushLeaves, leavesOf, under]

lemma pushMembers_toList (path : Path) (acc : Array (Path × Json)) (ms : List (String × Json)) :
    (pushMembers path acc ms).toList = acc.toList ++ (memberLeaves ms).map (under path) := by
  match ms with
  | [] => simp [pushMembers, memberLeaves]
  | (name, value) :: rest =>
    have hv := pushLeaves_toList (path.child name) acc value
    have hr := pushMembers_toList path (pushLeaves (path.child name) acc value) rest
    rw [pushMembers, hr, hv, memberLeaves, List.map_append, map_under_below]
    simp [Path.child]

lemma pushItems_toList (path : Path) (i : Nat) (acc : Array (Path × Json)) (items : List Json) :
    (pushItems path i acc items).toList = acc.toList ++ (itemLeaves i items).map (under path) := by
  match items with
  | [] => simp [pushItems, itemLeaves]
  | item :: rest =>
    have hv := pushLeaves_toList (path.index i) acc item
    have hr := pushItems_toList path (i + 1) (pushLeaves (path.index i) acc item) rest
    rw [pushItems, hr, hv, itemLeaves, List.map_append, map_under_below]
    simp [Path.index]

end

lemma leaves_eq (tree : Json.Members) : leaves tree = memberLeaves tree := by
  have h := pushMembers_toList [] #[] tree
  have hu : under [] = id := rfl
  simpa [leaves, hu] using h

lemma leavesOf_leaf {value : Json} (h : value.IsLeaf) : leavesOf value = [([], value)] := by
  cases value with
  | object ms => simp [leavesOf, show ms = [] from h]
  | array xs => simp [leavesOf, show xs = #[] from h]
  | _ => simp [leavesOf]

lemma at?_leaf {value : Json} (h : value.IsLeaf) {p : Path} {v : Json} :
    Json.at? p value = some v ↔ p = [] ∧ v = value := by
  cases p with
  | nil => simp [Json.at?, eq_comm]
  | cons s p =>
    cases value with
    | object ms => cases s <;> simp [Json.at?, show ms = [] from h, Fields.get?_nil]
    | array xs => cases s <;> simp [Json.at?, show xs = #[] from h]
    | _ => simp [Json.at?]

lemma mem_leavesOf_leaf {value : Json} (h : value.IsLeaf) {p : Path} {v : Json} :
    (p, v) ∈ leavesOf value ↔ Json.at? p value = some v ∧ v.IsLeaf := by
  rw [leavesOf_leaf h, at?_leaf h]
  constructor
  · intro hm
    obtain ⟨rfl, rfl⟩ := Prod.mk.inj (List.mem_singleton.mp hm)
    exact ⟨⟨rfl, rfl⟩, h⟩
  · rintro ⟨⟨rfl, rfl⟩, _⟩
    exact List.mem_singleton_self _

lemma memberLeaves_key {ms : List (String × Json)} {leaf : Path × Json} (h : leaf ∈ memberLeaves ms) :
    ∃ name ∈ Fields.names ms, ∃ p, leaf.1 = .key name :: p := by
  induction ms with
  | nil => simp [memberLeaves] at h
  | cons m rest ih =>
    obtain ⟨name, value⟩ := m
    rw [memberLeaves] at h
    rcases List.mem_append.mp h with h | h
    · obtain ⟨l, _, rfl⟩ := List.mem_map.mp h
      exact ⟨name, List.mem_cons_self, l.1, rfl⟩
    · obtain ⟨n, hn, p, hp⟩ := ih h
      exact ⟨n, List.mem_cons_of_mem _ hn, p, hp⟩

lemma itemLeaves_index {items : List Json} {i : Nat} {leaf : Path × Json}
    (h : leaf ∈ itemLeaves i items) : ∃ j, i ≤ j ∧ ∃ p, leaf.1 = .index j :: p := by
  induction items generalizing i with
  | nil => simp [itemLeaves] at h
  | cons item rest ih =>
    rw [itemLeaves] at h
    rcases List.mem_append.mp h with h | h
    · obtain ⟨l, _, rfl⟩ := List.mem_map.mp h
      exact ⟨i, Nat.le_refl i, l.1, rfl⟩
    · obtain ⟨j, hj, p, hp⟩ := ih h
      exact ⟨j, by omega, p, hp⟩

lemma mem_map_below {s : Step} {ls : List (Path × Json)} {p : Path} {v : Json} :
    (p, v) ∈ ls.map (below s) ↔ ∃ rest, p = s :: rest ∧ (rest, v) ∈ ls := by
  simp only [below, List.mem_map, Prod.mk.injEq, Prod.exists]
  constructor
  · rintro ⟨rest, w, hm, rfl, rfl⟩
    exact ⟨rest, rfl, hm⟩
  · rintro ⟨rest, rfl, hm⟩
    exact ⟨rest, v, hm, rfl, rfl⟩

mutual

lemma mem_leavesOf {value : Json} (hr : value.Regular) {p : Path} {v : Json} :
    (p, v) ∈ leavesOf value ↔ Json.at? p value = some v ∧ v.IsLeaf := by
  match value with
  | .object (m :: ms) =>
    rw [leavesOf, if_neg (by simp), mem_memberLeaves hr.1 hr.2]
    cases p with
    | nil =>
      simp only [Json.at?, Option.some.injEq]
      constructor
      · rintro ⟨_, _, h, _⟩
        exact absurd h (by simp)
      · rintro ⟨rfl, h⟩
        exact absurd h (by simp)
    | cons s p => cases s <;> simp [Json.at?]
  | .array ⟨x :: xs⟩ =>
    rw [leavesOf, if_neg (by simp), mem_itemLeaves 0 hr]
    cases p with
    | nil =>
      simp only [Json.at?, Option.some.injEq]
      constructor
      · rintro ⟨_, _, h, _⟩
        exact absurd h (by simp)
      · rintro ⟨rfl, h⟩
        exact absurd h (by simp)
    | cons s p => cases s <;> simp [Json.at?]
  | .object [] => exact mem_leavesOf_leaf (by simp)
  | .array ⟨[]⟩ => exact mem_leavesOf_leaf (by simp)
  | .null => exact mem_leavesOf_leaf (by simp)
  | .bool _ => exact mem_leavesOf_leaf (by simp)
  | .number _ => exact mem_leavesOf_leaf (by simp)
  | .string _ => exact mem_leavesOf_leaf (by simp)

lemma mem_memberLeaves {ms : List (String × Json)} (hd : Fields.Distinct ms)
    (hr : Json.RegularMembers ms) {p : Path} {v : Json} :
    (p, v) ∈ memberLeaves ms ↔ ∃ name rest, p = .key name :: rest ∧
      (Fields.get? ms name).bind (Json.at? rest) = some v ∧ v.IsLeaf := by
  match ms with
  | [] => simp [memberLeaves, Fields.get?_nil]
  | (n, value) :: ms =>
    have hn := List.nodup_cons.mp hd
    rw [memberLeaves, List.mem_append, mem_map_below, mem_memberLeaves hn.2 hr.2]
    constructor
    · rintro (⟨rest, rfl, hm⟩ | ⟨name, rest, rfl, hw, hv⟩)
      · exact ⟨n, rest, rfl, by simpa [Fields.get?_cons] using (mem_leavesOf hr.1).mp hm⟩
      · obtain ⟨w, hg, _⟩ := Option.bind_eq_some_iff.mp hw
        have hne : n ≠ name := by
          rintro rfl
          exact hn.1 (Fields.mem_names_of_get? hg)
        exact ⟨name, rest, rfl, by simpa [Fields.get?_cons, hne] using hw, hv⟩
    · rintro ⟨name, rest, rfl, hw, hv⟩
      rw [Fields.get?_cons] at hw
      split at hw
      · next he =>
        obtain rfl := he
        exact Or.inl ⟨rest, rfl, (mem_leavesOf hr.1).mpr ⟨hw, hv⟩⟩
      · exact Or.inr ⟨name, rest, rfl, hw, hv⟩

lemma mem_itemLeaves (i : Nat) {items : List Json} (hr : Json.RegularItems items) {p : Path}
    {v : Json} :
    (p, v) ∈ itemLeaves i items ↔ ∃ j rest, p = .index (i + j) :: rest ∧
      items[j]?.bind (Json.at? rest) = some v ∧ v.IsLeaf := by
  match items with
  | [] => simp [itemLeaves]
  | item :: items =>
    rw [itemLeaves, List.mem_append, mem_map_below, mem_itemLeaves (i + 1) hr.2]
    constructor
    · rintro (⟨rest, rfl, hm⟩ | ⟨j, rest, rfl, hw, hv⟩)
      · exact ⟨0, rest, rfl, (mem_leavesOf hr.1).mp hm⟩
      · exact ⟨j + 1, rest, by rw [Nat.add_right_comm, Nat.add_assoc], hw, hv⟩
    · rintro ⟨j, rest, rfl, hw, hv⟩
      cases j with
      | zero => exact Or.inl ⟨rest, rfl, (mem_leavesOf hr.1).mpr ⟨hw, hv⟩⟩
      | succ j => exact Or.inr ⟨j, rest, by rw [Nat.add_right_comm, Nat.add_assoc], hw, hv⟩

end

lemma map_fst_below (s : Step) (ls : List (Path × Json)) :
    (ls.map (below s)).map Prod.fst = (ls.map Prod.fst).map (s :: ·) := by
  simp [below, Function.comp_def]

lemma nodup_append_below {s : Step} {ls more : List (Path × Json)} (hl : (ls.map Prod.fst).Nodup)
    (hm : (more.map Prod.fst).Nodup) (hs : ∀ leaf ∈ more, leaf.1.head? ≠ some s) :
    ((ls.map (below s) ++ more).map Prod.fst).Nodup := by
  rw [List.map_append, map_fst_below]
  apply List.nodup_append'.mpr
  refine ⟨hl.map fun p q h => (List.cons.inj h).2, hm, ?_⟩
  intro p hp hq
  obtain ⟨rest, _, rfl⟩ := List.mem_map.mp hp
  obtain ⟨leaf, hleaf, he⟩ := List.mem_map.mp hq
  exact hs leaf hleaf (by simp [he])

mutual

lemma nodup_leavesOf {value : Json} (hr : value.Regular) : ((leavesOf value).map Prod.fst).Nodup := by
  match value with
  | .object (m :: ms) =>
    rw [leavesOf, if_neg (by simp)]
    exact nodup_memberLeaves hr.1 hr.2
  | .array ⟨x :: xs⟩ =>
    rw [leavesOf, if_neg (by simp)]
    exact nodup_itemLeaves 0 hr
  | .object [] => simp [leavesOf]
  | .array ⟨[]⟩ => simp [leavesOf]
  | .null => simp [leavesOf]
  | .bool _ => simp [leavesOf]
  | .number _ => simp [leavesOf]
  | .string _ => simp [leavesOf]

lemma nodup_memberLeaves {ms : List (String × Json)} (hd : Fields.Distinct ms)
    (hr : Json.RegularMembers ms) : ((memberLeaves ms).map Prod.fst).Nodup := by
  match ms with
  | [] => simp [memberLeaves]
  | (name, value) :: rest =>
    have hn := List.nodup_cons.mp hd
    apply nodup_append_below (nodup_leavesOf hr.1) (nodup_memberLeaves hn.2 hr.2)
    intro leaf hl he
    obtain ⟨n, hm, p, hp⟩ := memberLeaves_key hl
    rw [hp] at he
    obtain rfl := Step.key.inj (Option.some.inj he)
    exact hn.1 hm

lemma nodup_itemLeaves (i : Nat) {items : List Json} (hr : Json.RegularItems items) :
    ((itemLeaves i items).map Prod.fst).Nodup := by
  match items with
  | [] => simp [itemLeaves]
  | item :: rest =>
    apply nodup_append_below (nodup_leavesOf hr.1) (nodup_itemLeaves (i + 1) hr.2)
    intro leaf hl he
    obtain ⟨j, hj, p, hp⟩ := itemLeaves_index hl
    rw [hp] at he
    obtain rfl := Step.index.inj (Option.some.inj he)
    omega

end

lemma valid_below {s : Step} {ls : List (Path × Json)} (hs : Path.ValidStep s)
    (h : ∀ leaf ∈ ls, ∀ t ∈ leaf.1, Path.ValidStep t) :
    ∀ leaf ∈ ls.map (below s), ∀ t ∈ leaf.1, Path.ValidStep t := by
  intro leaf hl t ht
  obtain ⟨l, hm, rfl⟩ := List.mem_map.mp hl
  rcases List.mem_cons.mp ht with rfl | ht
  · exact hs
  · exact h l hm t ht

mutual

lemma valid_leavesOf {path : Path} {value : Json} (h : fault? path value = none) :
    ∀ leaf ∈ leavesOf value, ∀ s ∈ leaf.1, Path.ValidStep s := by
  match value with
  | .object (m :: ms) =>
    rw [leavesOf, if_neg (by simp)]
    exact valid_memberLeaves h
  | .array ⟨x :: xs⟩ =>
    rw [fault?] at h
    split at h
    · exact absurd h (by simp)
    · next hlen =>
      rw [leavesOf, if_neg (by simp)]
      exact valid_itemLeaves (by omega) h
  | .object [] => simp [leavesOf]
  | .array ⟨[]⟩ => simp [leavesOf]
  | .null => simp [leavesOf]
  | .bool _ => simp [leavesOf]
  | .number _ => simp [leavesOf]
  | .string _ => simp [leavesOf]

lemma valid_memberLeaves {path : Path} {ms : List (String × Json)}
    (h : memberFault? path ms = none) :
    ∀ leaf ∈ memberLeaves ms, ∀ s ∈ leaf.1, Path.ValidStep s := by
  match ms with
  | [] => simp [memberLeaves]
  | (name, value) :: rest =>
    rw [memberFault?] at h
    split at h
    · exact absurd h (by simp)
    · next hk =>
      split at h
      · exact absurd h (by simp)
      · next hv =>
        have hs : Path.ValidStep (.key name) := (Path.checkKey_eq_ok name path).mp hk
        intro leaf hl
        rcases List.mem_append.mp hl with hl | hl
        · exact valid_below hs (valid_leavesOf hv) leaf hl
        · exact valid_memberLeaves h leaf hl

lemma valid_itemLeaves {path : Path} {i : Nat} {items : List Json}
    (hi : i + items.length ≤ maxIndex + 1) (h : itemFault? path i items = none) :
    ∀ leaf ∈ itemLeaves i items, ∀ s ∈ leaf.1, Path.ValidStep s := by
  match items with
  | [] => simp [itemLeaves]
  | item :: rest =>
    rw [itemFault?] at h
    split at h
    · exact absurd h (by simp)
    · next hv =>
      have hlen : i + 1 + rest.length ≤ maxIndex + 1 := by
        simp only [List.length_cons] at hi
        omega
      have hs : Path.ValidStep (.index i) := by
        change i ≤ maxIndex
        omega
      intro leaf hl
      rcases List.mem_append.mp hl with hl | hl
      · exact valid_below hs (valid_leavesOf hv) leaf hl
      · exact valid_itemLeaves hlen h leaf hl

end

lemma readable_memberLeaves {tree : Json.Members} (h : memberFault? [] tree = none)
    {leaf : Path × Json} (hl : leaf ∈ memberLeaves tree) : Path.Readable leaf.1 := by
  obtain ⟨name, _, p, hp⟩ := memberLeaves_key hl
  exact ⟨by rw [hp]; trivial, valid_memberLeaves h leaf hl⟩

end FlatTree
end TreeMarkup
