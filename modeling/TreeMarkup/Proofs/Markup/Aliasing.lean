import TreeMarkup.Markup.Build
import TreeMarkup.Proofs.FlatTree.Renaming
import TreeMarkup.Proofs.FlatTree.Writing

namespace TreeMarkup

namespace FlatTree

section Parting

def moved (renames : FlatTree) (l : Path × Json) : Path × Json :=
  (pathOf (target renames l.1.text), l.2)

variable {tree : Json.Members} {renames : FlatTree}

lemma movedTo_moved (hf : memberFault? [] tree = none) {l : Path × Json} (hl : l ∈ memberLeaves tree) :
    MovedTo renames l.1.text (moved renames l).1 := by
  have hk : ∃ path, Path.parse l.1.text = .ok path :=
    ⟨l.1, Path.parse_text (readable_memberLeaves hf hl)⟩
  obtain ⟨path, hp⟩ := exists_path_target hk
  rw [movedTo_iff, moved, pathOf_eq hp, hp]

lemma MovedTo.unique {key : String} {p q : Path} (hp : MovedTo renames key p)
    (hq : MovedTo renames key q) : p = q := by
  rw [movedTo_iff] at hp hq
  exact Except.ok.inj (hp.symm.trans hq)

lemma mem_names_leaves {ls : List (Path × Json)} {key : String} :
    key ∈ Fields.names (ls.map fun l => (l.1.text, l.2)) ↔ ∃ l ∈ ls, key = l.1.text := by
  rw [names_leaves, List.map_map]
  simp [eq_comm]

lemma mem_moved_iff (hf : memberFault? [] tree = none) (p : Path) :
    p ∈ ((memberLeaves tree).map (moved renames)).map Prod.fst ↔
      ∃ key ∈ Fields.names ((memberLeaves tree).map fun l => (l.1.text, l.2)),
        MovedTo renames key p := by
  rw [List.map_map, List.mem_map]
  constructor
  · rintro ⟨l, hl, rfl⟩
    exact ⟨l.1.text, mem_names_leaves.mpr ⟨l, hl, rfl⟩, movedTo_moved hf hl⟩
  · rintro ⟨key, hk, hp⟩
    obtain ⟨l, hl, rfl⟩ := mem_names_leaves.mp hk
    exact ⟨l, hl, (movedTo_moved hf hl).unique hp⟩

lemma parted_moved (hr : (Json.object tree).Regular) (hf : memberFault? [] tree = none)
    (hc : ∀ k ∈ memberLeaves tree, ∀ l ∈ memberLeaves tree, k.1.text ≠ l.1.text →
      ∀ p q, MovedTo renames k.1.text p → MovedTo renames l.1.text q → ¬Path.Conflict p q) :
    ((memberLeaves tree).map (moved renames)).Pairwise fun k l => Path.Parted k.1 l.1 := by
  have hd := nodup_memberLeaves hr.1 hr.2
  rw [List.nodup_iff_pairwise_ne, List.pairwise_map] at hd
  rw [List.pairwise_map]
  refine hd.imp_of_mem ?_
  intro k l hk hl hne
  have htext : k.1.text ≠ l.1.text := fun he =>
    hne (Path.text_injective (readable_memberLeaves hf hk) (readable_memberLeaves hf hl) he)
  exact Path.parted_of_not_conflict
    (hc k hk l hl htext _ _ (movedTo_moved hf hk) (movedTo_moved hf hl))

lemma resolve_of_parted
    (hp : ((memberLeaves tree).map (moved renames)).Pairwise fun k l => Path.Parted k.1 l.1) :
    (resolve renames ((memberLeaves tree).map fun l => (l.1.text, l.2))).map spelled =
      (memberLeaves tree).map (moved renames) := by
  have hn : ((Fields.names ((memberLeaves tree).map fun l => (l.1.text, l.2))).map
      (target renames)).Nodup := by
    rw [names_leaves, List.map_map, List.map_map, List.nodup_iff_pairwise_ne, List.pairwise_map]
    rw [List.pairwise_map] at hp
    refine hp.imp ?_
    intro k l hparted he
    have hpath : (moved renames k).1 = (moved renames l).1 := congrArg pathOf he
    rw [hpath] at hparted
    exact Path.Parted.irrefl _ hparted
  rw [resolve_of_nodup hn, List.map_map, List.map_map]
  rfl

lemma filled_moved (hr : (Json.object tree).Regular)
    (ht : ofTree tree = .ok ((memberLeaves tree).map fun l => (l.1.text, l.2)))
    (hp : ((memberLeaves tree).map (moved renames)).Pairwise fun k l => Path.Parted k.1 l.1) :
    ∃ result, toTree (resolve renames ((memberLeaves tree).map fun l => (l.1.text, l.2))) =
      .ok result ∧ Filled ((memberLeaves tree).map (moved renames)) (.object result) := by
  have hleaf : ∀ l ∈ (memberLeaves tree).map (moved renames), l.2.IsLeaf := by
    intro l hl
    obtain ⟨k, hk, rfl⟩ := List.mem_map.mp hl
    exact ((mem_memberLeaves_iff hr).mp hk).2.2
  have hfill := filled_fill hleaf hp
  obtain ⟨result, hread, he⟩ := @toTree_resolve renames _ tree ht
  rw [resolve_of_parted hp] at he
  rw [he] at hfill
  exact ⟨result, hread, hfill⟩

end Parting

end FlatTree

namespace Markup

open FlatTree

variable {tree table : Json.Members} {aliases : Json} {flat renames : FlatTree}

lemma flatForms_object (ht : ofTree tree = .ok flat) (ha : ofTree table = .ok renames) :
    flatForms tree (.object table) = .ok (flat, renames) := by
  simp [flatForms, ht, ha, Except.map]

lemma flatForms_of_not_object (ht : ofTree tree = .ok flat) (h : ∀ table, aliases ≠ .object table) :
    flatForms tree aliases = .ok (flat, []) := by
  cases aliases with
  | object table => exact absurd rfl (h table)
  | _ => simp only [flatForms, ht]

lemma ofTree_of_flatForms (h : flatForms tree aliases = .ok (flat, renames)) :
    ofTree tree = .ok flat := by
  rw [flatForms] at h
  split at h
  · exact absurd h (by simp)
  · next found hf =>
    rw [hf]
    split at h
    · next members =>
      obtain ⟨forms, _, he⟩ := map_eq_ok h
      rw [(Prod.mk.inj he).1]
    · simp only [Except.ok.injEq, Prod.mk.injEq] at h
      rw [h.1]

lemma aliasTree_of_flatForms (h : flatForms tree aliases = .ok (flat, renames)) {result : Json.Members}
    (ht : toTree (resolve renames flat) = .ok result) :
    ∃ log, aliasTree tree aliases = .ok (result, log) := by
  simp only [aliasTree, h, ht, Except.map]
  exact ⟨_, rfl⟩

lemma aliasTree_ok (h : flatForms tree aliases = .ok (flat, renames)) :
    ∃ result log, aliasTree tree aliases = .ok (result, log) := by
  obtain ⟨result, ht, _⟩ := @toTree_resolve renames flat tree (ofTree_of_flatForms h)
  exact ⟨result, aliasTree_of_flatForms h ht⟩

lemma aliasTree_of_kept (hr : (Json.object tree).Regular)
    (h : flatForms tree aliases = .ok (flat, renames))
    (hk : ∀ key ∈ Fields.names flat, target renames key = key) :
    ∃ log, aliasTree tree aliases = .ok (tree, log) := by
  obtain ⟨hf, rfl⟩ := ofTree_eq hr (ofTree_of_flatForms h)
  have hres := resolve_of_kept (distinct_leaves hr hf) hk
  have hback := toTree_leaves hr hf
  exact aliasTree_of_flatForms h (hres.symm ▸ hback)

/-- When no two new paths conflict, every leaf can be read at its new path, and what else there is fills
gaps before items. -/
theorem aliasTree_keeps_leaves (hr : (Json.object tree).Regular) (ht : ofTree tree = .ok flat)
    (ha : ofTree table = .ok renames)
    (hc : ∀ k ∈ Fields.names flat, ∀ l ∈ Fields.names flat, k ≠ l →
      ∀ p q, MovedTo renames k p → MovedTo renames l q → ¬Path.Conflict p q) :
    ∃ result log, aliasTree tree (.object table) = .ok (result, log) ∧
      (Json.object result).Regular ∧
      (∀ path leaf, LeafAt tree path leaf → (path.text, leaf) ∈ flat ∧
        ∃ p, MovedTo renames path.text p ∧ Json.at? p (.object result) = some leaf) ∧
      ∀ p leaf, LeafAt result p leaf →
        (∃ path, LeafAt tree path leaf ∧ MovedTo renames path.text p) ∨
          (leaf = .null ∧ Gap (fun q => ∃ key ∈ Fields.names flat, MovedTo renames key q) p) := by
  obtain ⟨hf, rfl⟩ := ofTree_eq hr ht
  have hnames : ∀ l ∈ memberLeaves tree,
      l.1.text ∈ Fields.names ((memberLeaves tree).map fun l => (l.1.text, l.2)) :=
    fun l hl => mem_names_leaves.mpr ⟨l, hl, rfl⟩
  have hp := parted_moved hr hf fun k hk l hl => hc _ (hnames k hk) _ (hnames l hl)
  obtain ⟨result, hres, hfill⟩ := filled_moved hr ht hp
  obtain ⟨log, hlog⟩ := aliasTree_of_flatForms (flatForms_object ht ha) hres
  refine ⟨result, log, hlog, hfill.regular, ?_, ?_⟩
  · intro path leaf hl
    have hm := (mem_memberLeaves_iff hr).mpr hl
    exact ⟨List.mem_map_of_mem hm, _, movedTo_moved hf hm, hfill.kept _ (List.mem_map_of_mem hm)⟩
  · intro p leaf hl
    rcases hfill.leaves p leaf hl.1 hl.2.1 hl.2.2 with hm | ⟨rfl, hgap⟩
    · obtain ⟨k, hk, he⟩ := List.mem_map.mp hm
      obtain ⟨rfl, rfl⟩ := Prod.mk.inj he
      exact Or.inl ⟨k.1, (mem_memberLeaves_iff hr).mp hk, movedTo_moved hf hk⟩
    · exact Or.inr ⟨rfl, (gap_congr (mem_moved_iff hf) p).mp hgap⟩

section Shelf

def shelfTree : Json.Members :=
  [("a", .number (.whole 1)), ("b", .object [("c", .bool true)]), ("d", .null)]

def shelfTable : Json.Members :=
  [("a", .string "x[02].y"), ("b", .object [("c", .string "x[0]")]), ("d", .string "x[70000]")]

def shelfFlat : FlatTree :=
  [("a", .number (.whole 1)), ("b.c", .bool true), ("d", .null)]

def shelfNames : FlatTree :=
  [("a", .string "x[02].y"), ("b.c", .string "x[0]"), ("d", .string "x[70000]")]

def shelfRenamed : FlatTree :=
  [("x[02].y", .number (.whole 1)), ("x[0]", .bool true), ("d", .null)]

def shelf : Json.Members :=
  [("x", .array #[.bool true, .null, .object [("y", .number (.whole 1))]]), ("d", .null)]

def shelfPaths : List (String × Path) :=
  [("a", [.key "x", .index 2, .key "y"]), ("b.c", [.key "x", .index 0]), ("d", [.key "d"])]

lemma parse_shelf : ∀ e ∈ shelfPaths, Path.parse (target shelfNames e.1) = .ok e.2 := by
  intro e he
  simp only [shelfPaths, List.mem_cons, List.not_mem_nil, or_false] at he
  rcases he with rfl | rfl | rfl <;> rfl

lemma movedTo_shelf {key : String} (hk : key ∈ Fields.names shelfFlat) {p : Path}
    (hp : MovedTo shelfNames key p) : (key, p) ∈ shelfPaths := by
  have hkey : key ∈ shelfPaths.map Prod.fst := hk
  obtain ⟨e, he, rfl⟩ := List.mem_map.mp hkey
  obtain rfl := Except.ok.inj ((parse_shelf e he).symm.trans (movedTo_iff.mp hp))
  exact he

lemma parted_shelf : ∀ e ∈ shelfPaths, ∀ f ∈ shelfPaths, e.1 ≠ f.1 → Path.Parted e.2 f.2 := by
  have hx : Path.Parted [.key "x", .index 2, .key "y"] [.key "x", .index 0] :=
    .step (.items (by decide))
  have hd : ∀ rest, Path.Parted (.key "x" :: rest) [.key "d"] := fun _ => .keys (by decide)
  simp [shelfPaths, hx, hx.symm, hd, fun rest => (hd rest).symm]

end Shelf

theorem aliasTree_keeps_leaves_shelf : (Json.object shelfTree).Regular ∧
    ofTree shelfTree = .ok shelfFlat ∧ ofTree shelfTable = .ok shelfNames ∧
    (∀ k ∈ Fields.names shelfFlat, ∀ l ∈ Fields.names shelfFlat, k ≠ l →
      ∀ p q, MovedTo shelfNames k p → MovedTo shelfNames l q → ¬Path.Conflict p q) ∧
    (aliasTree shelfTree (.object shelfTable)).map Prod.fst = .ok shelf ∧
    (∀ path leaf, LeafAt shelfTree path leaf →
      ∃ p, MovedTo shelfNames path.text p ∧ Json.at? p (.object shelf) = some leaf) ∧
    ∀ p leaf, LeafAt shelf p leaf →
      (∃ path, LeafAt shelfTree path leaf ∧ MovedTo shelfNames path.text p) ∨
        (leaf = .null ∧ Gap (fun q => ∃ key ∈ Fields.names shelfFlat, MovedTo shelfNames key q) p) := by
  have hr : (Json.object shelfTree).Regular := by
    simp [shelfTree, Json.Regular, Json.RegularMembers, Fields.Distinct, Fields.names]
  have ht : ofTree shelfTree = .ok shelfFlat := rfl
  have ha : ofTree shelfTable = .ok shelfNames := rfl
  have hc : ∀ k ∈ Fields.names shelfFlat, ∀ l ∈ Fields.names shelfFlat, k ≠ l →
      ∀ p q, MovedTo shelfNames k p → MovedTo shelfNames l q → ¬Path.Conflict p q := by
    intro k hk l hl hne p q hp hq
    exact (parted_shelf _ (movedTo_shelf hk hp) _ (movedTo_shelf hl hq) hne).not_conflict
  have hrenamed : resolve shelfNames shelfFlat = shelfRenamed := rfl
  have hread : toTree (resolve shelfNames shelfFlat) = .ok shelf := by
    have hs : shelfRenamed.map spelled = [([.key "x", .index 2, .key "y"], .number (.whole 1)),
        ([.key "x", .index 0], .bool true), ([.key "d"], .null)] := rfl
    rw [hrenamed]
    exact toTree_of_spelled (exists_path_of_all rfl) hs rfl
  have hshelf : (aliasTree shelfTree (.object shelfTable)).map Prod.fst = .ok shelf := by
    obtain ⟨log, hlog⟩ := aliasTree_of_flatForms (flatForms_object ht ha) hread
    rw [hlog]
    rfl
  obtain ⟨result, log, hres, _, hkept, hleaves⟩ := aliasTree_keeps_leaves hr ht ha hc
  rw [hres] at hshelf
  obtain rfl := Except.ok.inj hshelf
  exact ⟨hr, ht, ha, hc, by rw [hres]; rfl, fun path leaf hl => (hkept path leaf hl).2, hleaves⟩

end Markup

end TreeMarkup
