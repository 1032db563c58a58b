import TreeMarkup.Proofs.FlatTree.Leaves

namespace TreeMarkup.FlatTree

def fill (tree : Json) (ls : List (Path × Json)) : Json :=
  ls.foldl (fun t leaf => put leaf.2 leaf.1 t) tree

lemma fill_append (tree : Json) (ls more : List (Path × Json)) :
    fill tree (ls ++ more) = fill (fill tree ls) more :=
  List.foldl_append

def pathOf (key : String) : Path :=
  match Path.parse key with
  | .ok path => path
  | .error _ => []

lemma pathOf_eq {key : String} {path : Path} (h : Path.parse key = .ok path) : pathOf key = path := by
  simp [pathOf, h]

def spelled (entry : String × Json) : Path × Json :=
  (pathOf entry.1, entry.2)

lemma putAll_cons_of_parse {key : String} {path : Path} (h : Path.parse key = .ok path) (tree value : Json)
    (rest : FlatTree) : putAll tree ((key, value) :: rest) = putAll (put value path tree) rest := by
  have hb := Path.isBounded_of_readable (Path.readable_of_parse h)
  simp only [putAll, h, hb, if_true]

lemma putAll_eq_fill_spelled (tree : Json) (flat : FlatTree)
    (h : ∀ key ∈ Fields.names flat, ∃ path, Path.parse key = .ok path) :
    putAll tree flat = .ok (fill tree (flat.map spelled)) := by
  induction flat generalizing tree with
  | nil => rfl
  | cons entry flat ih =>
    obtain ⟨key, value⟩ := entry
    obtain ⟨path, hp⟩ := h key List.mem_cons_self
    have hi := ih (put value path tree) fun k hk => h k (List.mem_cons_of_mem _ hk)
    simp only [putAll_cons_of_parse hp, List.map_cons, spelled, pathOf_eq hp]
    exact hi

lemma put_object {path : Path} (h : Path.startsWithKey path) (value : Json) (members : Json.Members) :
    ∃ result, put value path (.object members) = .object result := by
  match path, h with
  | .key name :: rest, _ => exact ⟨_, rfl⟩

lemma fill_object {ls : List (Path × Json)} (h : ∀ l ∈ ls, Path.startsWithKey l.1)
    (members : Json.Members) : ∃ result, fill (.object members) ls = .object result := by
  induction ls generalizing members with
  | nil => exact ⟨members, rfl⟩
  | cons l ls ih =>
    obtain ⟨p, v⟩ := l
    obtain ⟨hp, hls⟩ := List.forall_mem_cons.mp h
    obtain ⟨result, hr⟩ := put_object hp v members
    have hi := ih hls result
    rwa [← hr] at hi

lemma exists_path_of_all {flat : FlatTree}
    (h : (flat.all fun entry => (Path.parse entry.1).isOk) = true) :
    ∀ key ∈ Fields.names flat, ∃ path, Path.parse key = .ok path := by
  intro key hk
  obtain ⟨entry, he, rfl⟩ := List.mem_map.mp hk
  have hok := List.all_eq_true.mp h entry he
  cases hp : Path.parse entry.1 with
  | ok path => exact ⟨path, rfl⟩
  | error e =>
    rw [hp] at hok
    cases hok

section Spelled

variable {flat : FlatTree} (h : ∀ key ∈ Fields.names flat, ∃ path, Path.parse key = .ok path)
include h

lemma mem_spelled {l : Path × Json} (hl : l ∈ flat.map spelled) :
    ∃ entry ∈ flat, Path.parse entry.1 = .ok l.1 ∧ entry.2 = l.2 := by
  obtain ⟨entry, he, rfl⟩ := List.mem_map.mp hl
  obtain ⟨path, hp⟩ := h entry.1 (List.mem_map_of_mem he)
  refine ⟨entry, he, ?_, rfl⟩
  rw [spelled, pathOf_eq hp, hp]

lemma readable_spelled : ∀ l ∈ flat.map spelled, Path.Readable l.1 := by
  intro l hl
  obtain ⟨_, _, hp, _⟩ := mem_spelled h hl
  exact Path.readable_of_parse hp

lemma toTree_eq_fill :
    ∃ tree, toTree flat = .ok tree ∧ fill (.object []) (flat.map spelled) = .object tree := by
  obtain ⟨tree, ht⟩ := fill_object (fun l hl => (readable_spelled h l hl).first) []
  refine ⟨tree, ?_, ht⟩
  rw [toTree, putAll_eq_fill_spelled _ _ h, ht]
  rfl

lemma toTree_of_spelled {ls : List (Path × Json)} {tree : Json.Members}
    (hs : flat.map spelled = ls) (hf : fill (.object []) ls = .object tree) :
    toTree flat = .ok tree := by
  obtain ⟨found, ht, hfound⟩ := toTree_eq_fill h
  rw [hs, hf] at hfound
  rw [ht, Json.object.inj hfound]

end Spelled

lemma putAll_eq_fill (tree : Json) (ls : List (Path × Json))
    (h : ∀ leaf ∈ ls, Path.Readable leaf.1) :
    putAll tree (ls.map fun leaf => (leaf.1.text, leaf.2)) = .ok (fill tree ls) := by
  have hparse : ∀ leaf ∈ ls, Path.parse leaf.1.text = .ok leaf.1 := fun leaf hl =>
    Path.parse_text (h leaf hl)
  have hs : (ls.map fun leaf => (leaf.1.text, leaf.2)).map spelled = ls := by
    rw [List.map_map]
    refine List.map_congr_left ?_ |>.trans (List.map_id ls)
    intro leaf hl
    simp [spelled, pathOf_eq (hparse leaf hl)]
  rw [putAll_eq_fill_spelled, hs]
  intro key hk
  obtain ⟨entry, he, rfl⟩ := List.mem_map.mp hk
  obtain ⟨leaf, hl, rfl⟩ := List.mem_map.mp he
  exact ⟨leaf.1, hparse leaf hl⟩

section Members

variable {name : String} {ms : List (String × Json)}

lemma put_new_key (h : name ∉ Fields.names ms) (v : Json) (p : Path) :
    put v (.key name :: p) (.object ms) = .object (ms ++ [(name, put v p .null)]) := by
  have ha := Fields.alter_of_not_mem h (fun old => put v p (old.getD .null)) []
  simpa [put, Json.members, Fields.alter] using ha

lemma put_last_key (h : name ∉ Fields.names ms) (v w : Json) (p : Path) :
    put v (.key name :: p) (.object (ms ++ [(name, w)])) =
      .object (ms ++ [(name, put v p w)]) := by
  have ha := Fields.alter_of_not_mem h (fun old => put v p (old.getD .null)) [(name, w)]
  simpa [put, Json.members, Fields.alter] using ha

lemma fill_last_key (h : name ∉ Fields.names ms) (w : Json) (ls : List (Path × Json)) :
    fill (.object (ms ++ [(name, w)])) (ls.map (below (.key name))) =
      .object (ms ++ [(name, fill w ls)]) := by
  induction ls generalizing w with
  | nil => rfl
  | cons leaf ls ih =>
    have hp := put_last_key h leaf.2 w leaf.1
    have hi := ih (put leaf.2 leaf.1 w)
    rw [← hp] at hi
    exact hi

lemma fill_new_key (h : name ∉ Fields.names ms) {ls : List (Path × Json)} (hne : ls ≠ []) :
    fill (.object ms) (ls.map (below (.key name))) = .object (ms ++ [(name, fill .null ls)]) := by
  cases ls with
  | nil => exact absurd rfl hne
  | cons leaf ls =>
    have hi := fill_last_key h (put leaf.2 leaf.1 .null) ls
    rw [← put_new_key h leaf.2 leaf.1] at hi
    exact hi

end Members

section Items

variable (xs : List Json)

lemma modify_last (w : Json) (f : Json → Json) : (xs ++ [w]).modify xs.length f = xs ++ [f w] := by
  induction xs with
  | nil => rfl
  | cons x xs ih => simpa using ih

lemma put_new_index (v : Json) (p : Path) :
    put v (.index xs.length :: p) (.array ⟨xs⟩) = .array ⟨xs ++ [put v p .null]⟩ := by
  have hp : padded (xs.length + 1) ⟨xs⟩ = ⟨xs ++ [.null]⟩ := by simp [padded]
  simp [put, Json.items, hp, modify_last]

lemma put_last_index (v w : Json) (p : Path) :
    put v (.index xs.length :: p) (.array ⟨xs ++ [w]⟩) = .array ⟨xs ++ [put v p w]⟩ := by
  have hp : padded (xs.length + 1) ⟨xs ++ [w]⟩ = ⟨xs ++ [w]⟩ := by simp [padded]
  simp [put, Json.items, hp, modify_last]

lemma fill_last_index (w : Json) (ls : List (Path × Json)) :
    fill (.array ⟨xs ++ [w]⟩) (ls.map (below (.index xs.length))) =
      .array ⟨xs ++ [fill w ls]⟩ := by
  induction ls generalizing w with
  | nil => rfl
  | cons leaf ls ih =>
    have hi := ih (put leaf.2 leaf.1 w)
    rw [← put_last_index xs leaf.2 w leaf.1] at hi
    exact hi

lemma fill_new_index {ls : List (Path × Json)} (hne : ls ≠ []) :
    fill (.array ⟨xs⟩) (ls.map (below (.index xs.length))) =
      .array ⟨xs ++ [fill .null ls]⟩ := by
  cases ls with
  | nil => exact absurd rfl hne
  | cons leaf ls =>
    have hi := fill_last_index xs (put leaf.2 leaf.1 .null) ls
    rw [← put_new_index xs leaf.2 leaf.1] at hi
    exact hi

end Items

lemma leavesOf_ne_nil (value : Json) : leavesOf value ≠ [] := by
  match value with
  | .object (m :: ms) =>
    rw [leavesOf, if_neg (by simp), memberLeaves]
    simp [leavesOf_ne_nil]
  | .array ⟨x :: xs⟩ =>
    rw [leavesOf, if_neg (by simp), itemLeaves]
    simp [leavesOf_ne_nil]
  | .object [] => simp [leavesOf]
  | .array ⟨[]⟩ => simp [leavesOf]
  | .null => simp [leavesOf]
  | .bool _ => simp [leavesOf]
  | .number _ => simp [leavesOf]
  | .string _ => simp [leavesOf]

lemma fill_null_members {m : String × Json} {ms : List (String × Json)} :
    fill .null (memberLeaves (m :: ms)) = fill (.object []) (memberLeaves (m :: ms)) := by
  cases hl : memberLeaves (m :: ms) with
  | nil => simp [memberLeaves, leavesOf_ne_nil] at hl
  | cons leaf ls =>
    have hm : leaf ∈ memberLeaves (m :: ms) := hl ▸ List.mem_cons_self
    obtain ⟨name, _, p, hp⟩ := memberLeaves_key hm
    simp [fill, hp, put, Json.members]

lemma fill_null_items {x : Json} {xs : List Json} :
    fill .null (itemLeaves 0 (x :: xs)) = fill (.array #[]) (itemLeaves 0 (x :: xs)) := by
  cases hl : itemLeaves 0 (x :: xs) with
  | nil => simp [itemLeaves, leavesOf_ne_nil] at hl
  | cons leaf ls =>
    have hm : leaf ∈ itemLeaves 0 (x :: xs) := hl ▸ List.mem_cons_self
    obtain ⟨i, _, p, hp⟩ := itemLeaves_index hm
    simp [fill, hp, put, Json.items]

mutual

lemma fill_leavesOf {value : Json} (hr : value.Regular) : fill .null (leavesOf value) = value := by
  match value with
  | .object (m :: ms) =>
    rw [leavesOf, if_neg (by simp), fill_null_members]
    exact fill_memberLeaves hr.1 hr.2
  | .array ⟨x :: xs⟩ =>
    rw [leavesOf, if_neg (by simp), fill_null_items]
    exact fill_itemLeaves hr
  | .object [] => rfl
  | .array ⟨[]⟩ => rfl
  | .null => rfl
  | .bool _ => rfl
  | .number _ => rfl
  | .string _ => rfl

lemma fill_memberLeaves {ms rest : List (String × Json)} (hd : Fields.Distinct (ms ++ rest))
    (hr : Json.RegularMembers rest) :
    fill (.object ms) (memberLeaves rest) = .object (ms ++ rest) := by
  match rest with
  | [] => simp [memberLeaves, fill]
  | (name, value) :: rest =>
    have hs : ms ++ (name, value) :: rest = (ms ++ [(name, value)]) ++ rest := by simp
    have hn : name ∉ Fields.names ms := Fields.not_mem_names_of_distinct hd
    rw [memberLeaves, fill_append, fill_new_key hn (leavesOf_ne_nil value), fill_leavesOf hr.1]
    rw [hs] at hd ⊢
    exact fill_memberLeaves hd hr.2

lemma fill_itemLeaves {xs rest : List Json} (hr : Json.RegularItems rest) :
    fill (.array ⟨xs⟩) (itemLeaves xs.length rest) = .array ⟨xs ++ rest⟩ := by
  match rest with
  | [] => simp [itemLeaves, fill]
  | item :: rest =>
    have hs : xs ++ item :: rest = (xs ++ [item]) ++ rest := by simp
    have hl : xs.length + 1 = (xs ++ [item]).length := by simp
    rw [itemLeaves, fill_append, fill_new_index xs (leavesOf_ne_nil item), fill_leavesOf hr.1, hs, hl]
    exact fill_itemLeaves hr.2

end

lemma names_leaves (ls : List (Path × Json)) :
    Fields.names (ls.map fun leaf => (leaf.1.text, leaf.2)) = (ls.map Prod.fst).map Path.text := by
  simp [Fields.names, Function.comp_def]

lemma distinct_leaves {tree : Json.Members} (hr : (Json.object tree).Regular)
    (h : memberFault? [] tree = none) :
    Fields.Distinct ((memberLeaves tree).map fun leaf => (leaf.1.text, leaf.2)) := by
  rw [Fields.Distinct]
  rw [names_leaves]
  apply (nodup_memberLeaves hr.1 hr.2).map_on
  intro p hp q hq he
  obtain ⟨l, hl, rfl⟩ := List.mem_map.mp hp
  obtain ⟨m, hm, rfl⟩ := List.mem_map.mp hq
  exact Path.text_injective (readable_memberLeaves h hl) (readable_memberLeaves h hm) he

/-- Writing the leaves under the texts of their paths loses none of them. -/
lemma ofTree_eq {tree : Json.Members} {flat : FlatTree} (hr : (Json.object tree).Regular)
    (h : ofTree tree = .ok flat) :
    memberFault? [] tree = none ∧
      flat = (memberLeaves tree).map fun leaf => (leaf.1.text, leaf.2) := by
  rw [ofTree] at h
  split at h
  · exact absurd h (by simp)
  · next hf =>
    have hi : Fields.insertAll [] _ = _ := Fields.insertAll_of_distinct (distinct_leaves hr hf)
    rw [leaves_eq, Fields.ofList_eq_insertAll] at h
    exact ⟨hf, (Except.ok.inj h).symm.trans hi⟩

def LeafAt (tree : Json.Members) (path : Path) (leaf : Json) : Prop :=
  path ≠ [] ∧ Json.at? path (.object tree) = some leaf ∧ leaf.IsLeaf

lemma mem_memberLeaves_iff {tree : Json.Members} (hr : (Json.object tree).Regular) {p : Path}
    {v : Json} : (p, v) ∈ memberLeaves tree ↔ LeafAt tree p v := by
  rw [mem_memberLeaves hr.1 hr.2, LeafAt]
  cases p with
  | nil => simp
  | cons s p => cases s <;> simp [Json.at?]

lemma toTree_leaves {tree : Json.Members} (hr : (Json.object tree).Regular)
    (h : memberFault? [] tree = none) :
    toTree ((memberLeaves tree).map fun leaf => (leaf.1.text, leaf.2)) = .ok tree := by
  have hp := putAll_eq_fill (.object []) (memberLeaves tree) fun l hl => readable_memberLeaves h hl
  have hfill : fill (.object []) (memberLeaves tree) = .object ([] ++ tree) :=
    fill_memberLeaves hr.1 hr.2
  rw [toTree, hp, hfill]
  rfl

theorem toTree_ofTree {tree : Json.Members} {flat : FlatTree} (hr : (Json.object tree).Regular)
    (h : ofTree tree = .ok flat) :
    toTree flat = .ok tree ∧ Fields.Distinct flat ∧
      (∀ path leaf, LeafAt tree path leaf → (path.text, leaf) ∈ flat) ∧
      (∀ entry ∈ flat, ∃! path, path.text = entry.1 ∧ LeafAt tree path entry.2) ∧
      (∀ p q v w, LeafAt tree p v → LeafAt tree q w → p.text = q.text → p = q) := by
  obtain ⟨hf, rfl⟩ := ofTree_eq hr h
  have hread : ∀ p v, LeafAt tree p v → Path.Readable p := fun p v hl =>
    readable_memberLeaves hf ((mem_memberLeaves_iff hr).mpr hl)
  have hinj : ∀ p q v w, LeafAt tree p v → LeafAt tree q w → p.text = q.text → p = q :=
    fun p q v w hp hq he => Path.text_injective (hread p v hp) (hread q w hq) he
  refine ⟨toTree_leaves hr hf, distinct_leaves hr hf, ?_, ?_, hinj⟩
  · intro path leaf hl
    exact List.mem_map.mpr ⟨(path, leaf), (mem_memberLeaves_iff hr).mpr hl, rfl⟩
  · intro entry he
    obtain ⟨l, hl, rfl⟩ := List.mem_map.mp he
    have hat := (mem_memberLeaves_iff hr).mp hl
    exact ⟨l.1, ⟨rfl, hat⟩, fun q hq => hinj q l.1 _ _ hq.2 hat hq.1⟩

def nestedTree : Json.Members :=
  [("rows", .array #[.array #[.null], .object [("0", .bool true), ("none", .array #[])]]),
    ("0", .object [])]

def nestedFlat : FlatTree :=
  [("rows[0][0]", .null), ("rows[1].0", .bool true), ("rows[1].none", .array #[]),
    ("0", .object [])]

theorem toTree_ofTree_nested : (Json.object nestedTree).Regular ∧ ofTree nestedTree = .ok nestedFlat ∧
    toTree nestedFlat = .ok nestedTree ∧ Fields.Distinct nestedFlat ∧
      ∀ entry ∈ nestedFlat, ∃! path, path.text = entry.1 ∧ LeafAt nestedTree path entry.2 := by
  have hr : (Json.object nestedTree).Regular := by
    simp [nestedTree, Json.Regular, Json.RegularMembers, Json.RegularItems, Fields.Distinct, Fields.names]
  have h : ofTree nestedTree = .ok nestedFlat := rfl
  obtain ⟨ht, hd, _, hu, _⟩ := toTree_ofTree hr h
  exact ⟨hr, h, ht, hd, hu⟩

end TreeMarkup.FlatTree
