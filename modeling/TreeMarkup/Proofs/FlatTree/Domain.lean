import TreeMarkup.Proofs.FlatTree.Writing

namespace TreeMarkup

namespace Json

inductive Addressable : Json → Prop
  | intro {value : Json} : (∀ m ∈ value.members, Path.IsKey m.1) →
      value.items.size ≤ maxIndex + 1 → (∀ m ∈ value.members, Addressable m.2) →
      (∀ x ∈ value.items, Addressable x) → Addressable value

lemma addressable_iff {value : Json} : value.Addressable ↔
    (∀ m ∈ value.members, Path.IsKey m.1 ∧ m.2.Addressable) ∧ value.items.size ≤ maxIndex + 1 ∧
      ∀ x ∈ value.items, x.Addressable := by
  constructor
  · rintro ⟨hk, hs, hm, hi⟩
    exact ⟨fun m hmem => ⟨hk m hmem, hm m hmem⟩, hs, hi⟩
  · rintro ⟨hm, hs, hi⟩
    exact ⟨fun m hmem => (hm m hmem).1, hs, fun m hmem => (hm m hmem).2, hi⟩

lemma addressable_object (ms : List (String × Json)) : (Json.object ms).Addressable ↔
    ∀ m ∈ ms, Path.IsKey m.1 ∧ m.2.Addressable := by
  rw [addressable_iff]
  simp [members, items]

lemma addressable_array (xs : List Json) : (Json.array ⟨xs⟩).Addressable ↔
    xs.length ≤ maxIndex + 1 ∧ ∀ x ∈ xs, x.Addressable := by
  rw [addressable_iff]
  simp [members, items]

lemma IsLeaf.addressable {value : Json} (h : value.IsLeaf) : value.Addressable := by
  cases value with
  | object ms => simp [addressable_object, (isLeaf_object ms).mp h]
  | array xs =>
    obtain rfl := (isLeaf_array xs).mp h
    simp [addressable_array]
  | _ =>
    rw [addressable_iff]
    simp [members, items]

end Json

namespace FlatTree

mutual

lemma fault?_eq_none (path : Path) (value : Json) : fault? path value = none ↔ value.Addressable := by
  match value with
  | .object ms => rw [fault?, memberFault?_eq_none path ms, Json.addressable_object]
  | .array ⟨xs⟩ =>
    rw [fault?, Json.addressable_array]
    split
    · next hlen =>
      refine ⟨fun h => (nomatch h), fun h => ?_⟩
      omega
    · next hlen =>
      rw [itemFault?_eq_none path 0 xs]
      exact ⟨fun h => ⟨by omega, h⟩, fun h => h.2⟩
  | .null => simp [fault?, Json.IsLeaf.addressable]
  | .bool _ => simp [fault?, Json.IsLeaf.addressable]
  | .number _ => simp [fault?, Json.IsLeaf.addressable]
  | .string _ => simp [fault?, Json.IsLeaf.addressable]

lemma memberFault?_eq_none (path : Path) (ms : List (String × Json)) :
    memberFault? path ms = none ↔ ∀ m ∈ ms, Path.IsKey m.1 ∧ m.2.Addressable := by
  match ms with
  | [] => simp [memberFault?]
  | (key, value) :: rest =>
    have hv := fault?_eq_none (path.child key) value
    have hr := memberFault?_eq_none path rest
    rw [List.forall_mem_cons, ← hv, ← hr, memberFault?]
    cases hk : Path.checkKey key path with
    | error e =>
      have hn : ¬Path.IsKey key := by
        rw [← Path.checkKey_eq_ok key path, hk]
        exact fun h => (nomatch h)
      simp [hn]
    | ok _ =>
      have hkey : Path.IsKey key := (Path.checkKey_eq_ok key path).mp hk
      cases hf : fault? (path.child key) value with
      | some e => simp
      | none => simp [hkey]

lemma itemFault?_eq_none (path : Path) (i : Nat) (xs : List Json) :
    itemFault? path i xs = none ↔ ∀ x ∈ xs, x.Addressable := by
  match xs with
  | [] => simp [itemFault?]
  | x :: rest =>
    have hx := fault?_eq_none (path.index i) x
    have hr := itemFault?_eq_none path (i + 1) rest
    rw [List.forall_mem_cons, ← hx, ← hr, itemFault?]
    cases fault? (path.index i) x with
    | some e => simp
    | none => simp

end

lemma ofTree_of_addressable {tree : Json.Members} (hr : (Json.object tree).Regular)
    (h : (Json.object tree).Addressable) :
    ofTree tree = .ok ((memberLeaves tree).map fun leaf => (leaf.1.text, leaf.2)) := by
  have hf : memberFault? [] tree = none :=
    (memberFault?_eq_none [] tree).mpr ((Json.addressable_object tree).mp h)
  have hflat : ofTree tree =
      .ok (Fields.ofList ((memberLeaves tree).map fun leaf => (leaf.1.text, leaf.2))) := by
    rw [ofTree, hf, leaves_eq]
  exact hflat.trans (congrArg Except.ok (ofTree_eq hr hflat).2)

section Put

variable {v tree : Json} {s : Step} {p : Path}

lemma size_items_within_le (hs : Path.ValidStep s) (h : tree.items.size ≤ maxIndex + 1)
    (f : Json → Json) : (within s f tree).items.size ≤ maxIndex + 1 := by
  cases s with
  | key name => simp [within, Json.items]
  | index i =>
    have hi : i ≤ maxIndex := hs
    rw [size_items_within]
    omega

lemma isKey_members_within (hs : Path.ValidStep s) (h : ∀ m ∈ tree.members, Path.IsKey m.1)
    (f : Json → Json) : ∀ m ∈ (within s f tree).members, Path.IsKey m.1 := by
  intro m hm
  rcases mem_members_within hm with hold | ⟨name, w, rfl, _, rfl⟩
  · exact h m hold
  · exact hs

lemma addressable_put (hv : v.Addressable) (ht : tree.Addressable)
    (hp : ∀ s ∈ p, Path.ValidStep s) : (put v p tree).Addressable := by
  induction p generalizing tree with
  | nil => exact hv
  | cons s p ih =>
    obtain ⟨hs, hp⟩ := List.forall_mem_cons.mp hp
    have hnull : Json.null.Addressable := Json.IsLeaf.addressable Json.isLeaf_null
    obtain ⟨hkeys, hsize, hmembers, hitems⟩ := ht
    rw [put_cons]
    refine .intro (isKey_members_within hs hkeys _) (size_items_within_le hs hsize _) ?_ ?_
    · intro m hm
      rcases mem_members_within hm with hold | ⟨name, w, _, rfl | hw, rfl⟩
      · exact hmembers m hold
      · exact ih hnull hp
      · exact ih (hmembers _ hw) hp
    · intro x hx
      rcases mem_items_within hx with rfl | hold | ⟨w, rfl | hw, rfl⟩
      · exact hnull
      · exact hitems x hold
      · exact ih hnull hp
      · exact ih (hitems w hw) hp

end Put

end FlatTree
end TreeMarkup
