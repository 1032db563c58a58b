import TreeMarkup.Proofs.FlatTree.Domain

namespace TreeMarkup.FlatTree

section Last

variable {v w : Json} {p q : Path} {ls : List (Path × Json)}

lemma at?_fill_of_parted (h : ∀ l ∈ ls, Path.Parted p l.1) {tree : Json}
    (hv : Json.at? p tree = some v) : Json.at? p (fill tree ls) = some v := by
  induction ls generalizing tree with
  | nil => exact hv
  | cons l ls ih =>
    obtain ⟨hl, hls⟩ := List.forall_mem_cons.mp h
    exact ih hls (at?_put_of_parted hl.symm hv)

def LastIn (ls : List (Path × Json)) (path : Path) (value : Json) : Prop :=
  ∃ before after, ls = before ++ (path, value) :: after ∧ ∀ l ∈ after, l.1 ≠ path

lemma lastIn_concat (ls : List (Path × Json)) (p : Path) (v : Json) : LastIn (ls ++ [(p, v)]) p v :=
  ⟨ls, [], rfl, by simp⟩

lemma LastIn.concat (h : LastIn ls q w) (hne : p ≠ q) (v : Json) : LastIn (ls ++ [(p, v)]) q w := by
  obtain ⟨before, after, rfl, hafter⟩ := h
  refine ⟨before, after ++ [(p, v)], by simp, ?_⟩
  intro l hl
  rcases List.mem_append.mp hl with hl | hl
  · exact hafter l hl
  · obtain rfl := List.mem_singleton.mp hl
    exact hne

end Last

/-- What holds of a tree after any writes of leaves, conflicting or not. -/
structure Overwritten (ls : List (Path × Json)) (tree : Json) : Prop where
  regular : tree.Regular
  addressable : tree.Addressable
  leaves : ∀ q w, q ≠ [] → Json.at? q tree = some w → w.IsLeaf →
    LastIn ls q w ∨ (w = .null ∧ ∃ l ∈ ls, Skipped q l.1)

section Overwritten

variable {ls : List (Path × Json)} {tree v : Json} {p : Path}

lemma overwritten_nil : Overwritten [] (.object []) := by
  refine ⟨filled_nil.regular, by simp [Json.addressable_object], ?_⟩
  intro q w hne hq _
  exact absurd ((at?_leaf ((Json.isLeaf_object []).mpr rfl)).mp hq).1 hne

lemma Overwritten.put (h : Overwritten ls tree) (hv : v.IsLeaf) (hp : ∀ s ∈ p, Path.ValidStep s) :
    Overwritten (ls ++ [(p, v)]) (put v p tree) := by
  refine ⟨regular_put hv.regular h.regular p, addressable_put hv.addressable h.addressable hp, ?_⟩
  intro q w hne hq hw
  rcases leaf_put hv hw hq with ⟨rfl, rfl⟩ | ⟨hold, hpre⟩ | ⟨rfl, _, hskip⟩
  · exact Or.inl (lastIn_concat ls q w)
  · -- A leaf from before that was not in the way: its last writer is still the last.
    rcases h.leaves q w hne hold hw with hlast | ⟨rfl, l, hl, hskip⟩
    · have hpq : p ≠ q := by
        rintro rfl
        exact hpre (List.prefix_refl p)
      exact Or.inl (hlast.concat hpq v)
    · exact Or.inr ⟨rfl, l, List.mem_append_left _ hl, hskip⟩
  · exact Or.inr ⟨rfl, (p, v), by simp, hskip⟩

lemma overwritten_fill (hl : ∀ l ∈ ls, l.2.IsLeaf ∧ ∀ s ∈ l.1, Path.ValidStep s) :
    Overwritten ls (fill (.object []) ls) := by
  apply fill_invariant overwritten_nil
  rintro done l rest tree rfl h
  obtain ⟨hleaf, hvalid⟩ := hl l (by simp)
  exact h.put hleaf hvalid

end Overwritten

section Entries

variable {flat : FlatTree} {path : Path} {value : Json}

/-- The entry under `key` has the path and the value, and no later entry conflicts with it. -/
def Unchallenged (flat : FlatTree) (key : String) (path : Path) (value : Json) : Prop :=
  ∃ before after, flat = before ++ (key, value) :: after ∧ Path.parse key = .ok path ∧
    ∀ later ∈ after, ∀ q, Path.parse later.1 = .ok q → ¬Path.Conflict path q

def LastAt (flat : FlatTree) (path : Path) (value : Json) : Prop :=
  ∃ before key after, flat = before ++ (key, value) :: after ∧ Path.parse key = .ok path ∧
    ∀ later ∈ after, Path.parse later.1 ≠ .ok path

variable (h : ∀ key ∈ Fields.names flat, ∃ path, Path.parse key = .ok path)
include h

lemma at?_of_unchallenged {key : String} (hu : Unchallenged flat key path value) :
    Json.at? path (fill (.object []) (flat.map spelled)) = some value := by
  obtain ⟨before, after, rfl, hp, hafter⟩ := hu
  have hkeys : ∀ key ∈ Fields.names after, ∃ path, Path.parse key = .ok path := by
    intro k hk
    apply h k
    simp only [Fields.names, List.map_append, List.map_cons]
    exact List.mem_append_right _ (List.mem_cons_of_mem _ hk)
  have hparted : ∀ l ∈ after.map spelled, Path.Parted path l.1 := by
    intro l hl
    obtain ⟨later, hlater, hq, _⟩ := mem_spelled hkeys hl
    exact Path.parted_of_not_conflict (hafter later hlater l.1 hq)
  have hs : spelled (key, value) = (path, value) := by rw [spelled, pathOf_eq hp]
  rw [List.map_append, List.map_cons, hs, fill_append]
  exact at?_fill_of_parted hparted (at?_put_self value path _)

lemma lastAt_of_lastIn (hl : LastIn (flat.map spelled) path value) : LastAt flat path value := by
  obtain ⟨before, after, hs, hafter⟩ := hl
  obtain ⟨front, rest, rfl, _, hrest⟩ := List.map_eq_append_iff.mp hs
  obtain ⟨⟨key, found⟩, back, rfl, hentry, rfl⟩ := List.map_eq_cons_iff.mp hrest
  obtain ⟨rfl, rfl⟩ := Prod.mk.inj hentry
  obtain ⟨q, hq⟩ := h key (by simp [Fields.names])
  refine ⟨front, key, back, rfl, by rw [pathOf_eq hq, hq], ?_⟩
  intro later hlater hp
  exact hafter _ (List.mem_map_of_mem hlater) (pathOf_eq hp)

lemma overwritten_of_leaves (hv : ∀ entry ∈ flat, entry.2.IsLeaf) :
    Overwritten (flat.map spelled) (fill (.object []) (flat.map spelled)) := by
  apply overwritten_fill
  intro l hl
  obtain ⟨entry, he, hp, hvalue⟩ := mem_spelled h hl
  exact ⟨hvalue ▸ hv entry he, (Path.readable_of_parse hp).steps⟩

end Entries

/-- However often the places before it were overwritten, and whatever its value holds, an entry is found
at its path unless a later entry conflicts with it. -/
theorem toTree_keeps_unchallenged {flat : FlatTree}
    (h : ∀ key ∈ Fields.names flat, ∃ path, Path.parse key = .ok path) :
    ∃ tree, toTree flat = .ok tree ∧ ∀ key path value, Unchallenged flat key path value →
      Json.at? path (.object tree) = some value := by
  obtain ⟨tree, ht, hfill⟩ := toTree_eq_fill h
  refine ⟨tree, ht, ?_⟩
  intro key path value hu
  rw [← hfill]
  exact at?_of_unchallenged h hu

def shelves : FlatTree :=
  [("a[1]", .string "old"), ("a.b", .object [("c", .bool true)]),
    ("a[02].k", .object [("c", .array #[])]), ("a[01]", .array #[.null]), ("b", .bool false)]

def shelvesPaths : List (Path × Json) :=
  [([.key "a", .index 1], .string "old"), ([.key "a", .key "b"], .object [("c", .bool true)]),
    ([.key "a", .index 2, .key "k"], .object [("c", .array #[])]),
    ([.key "a", .index 1], .array #[.null]), ([.key "b"], .bool false)]

def shelvesTree : Json.Members :=
  [("a", .array #[.null, .array #[.null], .object [("k", .object [("c", .array #[])])]]),
    ("b", .bool false)]

lemma paths_shelves : ∀ key ∈ Fields.names shelves, ∃ path, Path.parse key = .ok path :=
  exists_path_of_all rfl

lemma unchallenged_shelves : Unchallenged shelves "a[02].k" [.key "a", .index 2, .key "k"]
    (.object [("c", .array #[])]) := by
  refine ⟨shelves.take 2, shelves.drop 3, rfl, rfl, ?_⟩
  intro later hl q hq
  have hlater : later = ("a[01]", .array #[.null]) ∨ later = ("b", .bool false) := by
    simpa [shelves] using hl
  rcases hlater with rfl | rfl
  · obtain rfl : [.key "a", .index 1] = q := Except.ok.inj hq
    exact (Path.Parted.step (.items (by decide))).not_conflict
  · obtain rfl : [.key "b"] = q := Except.ok.inj hq
    exact (Path.Parted.keys (by decide)).not_conflict

theorem toTree_keeps_unchallenged_shelves :
    (∀ key ∈ Fields.names shelves, ∃ path, Path.parse key = .ok path) ∧
    Unchallenged shelves "a[02].k" [.key "a", .index 2, .key "k"] (.object [("c", .array #[])]) ∧
    toTree shelves = .ok shelvesTree ∧
    Json.at? [.key "a", .index 2, .key "k"] (.object shelvesTree) =
      some (.object [("c", .array #[])]) := by
  have hs : shelves.map spelled = shelvesPaths := rfl
  have ht : toTree shelves = .ok shelvesTree := toTree_of_spelled paths_shelves hs rfl
  obtain ⟨tree, htree, hkept⟩ := toTree_keeps_unchallenged paths_shelves
  obtain rfl := Except.ok.inj (ht.symm.trans htree)
  exact ⟨paths_shelves, unchallenged_shelves, ht, hkept _ _ _ unchallenged_shelves⟩

/-- A flat tree of leaves describes a tree that has a flat form again. Each entry of this form has its value
from the last entry for its path, or is `null` at an item before one that some entry goes through; and
every entry with which no later one conflicts is in it. -/
theorem ofTree_toTree {flat : FlatTree}
    (h : ∀ key ∈ Fields.names flat, ∃ path, Path.parse key = .ok path)
    (hv : ∀ entry ∈ flat, entry.2.IsLeaf) :
    ∃ tree again, toTree flat = .ok tree ∧ ofTree tree = .ok again ∧
      (∀ entry ∈ again, ∃ path, entry.1 = path.text ∧ (LastAt flat path entry.2 ∨
        (entry.2 = .null ∧ (∃ front i, path = front ++ [.index i]) ∧
          ∃ key ∈ Fields.names flat, ∃ p, Path.parse key = .ok p ∧ Skipped path p))) ∧
      ∀ key path value, Unchallenged flat key path value → (path.text, value) ∈ again := by
  obtain ⟨tree, ht, hfill⟩ := toTree_eq_fill h
  have hover := overwritten_of_leaves h hv
  rw [hfill] at hover
  refine ⟨tree, _, ht, ofTree_of_addressable hover.regular hover.addressable, ?_, ?_⟩
  · intro entry he
    obtain ⟨⟨path, leaf⟩, hl, rfl⟩ := List.mem_map.mp he
    obtain ⟨hne, hat, hw⟩ := (mem_memberLeaves_iff hover.regular).mp hl
    refine ⟨path, rfl, ?_⟩
    rcases hover.leaves path leaf hne hat hw with hlast | ⟨hnull, l, hl, hskip⟩
    · exact Or.inl (lastAt_of_lastIn h hlast)
    · obtain ⟨skipping, hs, hp, _⟩ := mem_spelled h hl
      obtain ⟨front, i, _, _, hend, _, _⟩ := id hskip
      exact Or.inr ⟨hnull, ⟨front, i, hend⟩, skipping.1, List.mem_map_of_mem hs, l.1, hp, hskip⟩
  · intro key path value hu
    have hat := at?_of_unchallenged h hu
    rw [hfill] at hat
    obtain ⟨before, after, hflat, hp, _⟩ := hu
    have hne : path ≠ [] := by
      rintro rfl
      exact (Path.readable_of_parse hp).first
    have hw : value.IsLeaf := hv (key, value) (by simp [hflat])
    exact List.mem_map.mpr ⟨(path, value), (mem_memberLeaves_iff hover.regular).mpr ⟨hne, hat, hw⟩, rfl⟩

def drawers : FlatTree :=
  [("a[2]", .number (.whole 1)), ("a.b", .bool true), ("a[1]", .string "x"), ("a[01]", .object []),
    ("c", .array #[])]

def drawersTree : Json.Members :=
  [("a", .array #[.null, .object []]), ("c", .array #[])]

def drawersAgain : FlatTree :=
  [("a[0]", .null), ("a[1]", .object []), ("c", .array #[])]

lemma paths_drawers : ∀ key ∈ Fields.names drawers, ∃ path, Path.parse key = .ok path :=
  exists_path_of_all rfl

theorem ofTree_toTree_drawers :
    (∀ key ∈ Fields.names drawers, ∃ path, Path.parse key = .ok path) ∧
    (∀ entry ∈ drawers, entry.2.IsLeaf) ∧ toTree drawers = .ok drawersTree ∧
    ofTree drawersTree = .ok drawersAgain ∧
    ∀ entry ∈ drawersAgain, ∃ path, entry.1 = path.text ∧ (LastAt drawers path entry.2 ∨
      (entry.2 = .null ∧ (∃ front i, path = front ++ [.index i]) ∧
        ∃ key ∈ Fields.names drawers, ∃ p, Path.parse key = .ok p ∧ Skipped path p)) := by
  have hv : ∀ entry ∈ drawers, entry.2.IsLeaf := by simp [drawers]
  have ht : toTree drawers = .ok drawersTree := rfl
  have ha : ofTree drawersTree = .ok drawersAgain := rfl
  obtain ⟨tree, again, htree, hagain, hentries, _⟩ := ofTree_toTree paths_drawers hv
  obtain rfl := Except.ok.inj (ht.symm.trans htree)
  obtain rfl := Except.ok.inj (ha.symm.trans hagain)
  exact ⟨paths_drawers, hv, ht, ha, hentries⟩

end TreeMarkup.FlatTree
