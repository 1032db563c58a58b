import TreeMarkup.Proofs.FlatTree.Overwriting

namespace TreeMarkup

namespace Json

inductive SameTop : Json → Json → Prop
  | object {ms ns : List (String × Json)} : (Fields.names ms).Perm (Fields.names ns) →
      SameTop (.object ms) (.object ns)
  | array {xs ys : Array Json} : xs.size = ys.size → SameTop (.array xs) (.array ys)
  | refl (a : Json) : SameTop a a

/-- Equal but for the order of members, at every depth. -/
inductive Reordered : Json → Json → Prop
  | intro {a b : Json} : SameTop a b →
      (∀ s v w, child? s a = some v → child? s b = some w → Reordered v w) → Reordered a b

section SameTop

variable {a b c : Json}

lemma SameTop.symm (h : SameTop a b) : SameTop b a := by
  cases h with
  | object h => exact .object h.symm
  | array h => exact .array h.symm
  | refl => exact .refl a

lemma SameTop.trans (h : SameTop a b) (h' : SameTop b c) : SameTop a c := by
  cases h with
  | object h =>
    cases h' with
    | object h' => exact .object (h.trans h')
    | refl => exact .object h
  | array h =>
    cases h' with
    | array h' => exact .array (h.trans h')
    | refl => exact .array h
  | refl => exact h'

lemma SameTop.names (h : SameTop a b) : (Fields.names a.members).Perm (Fields.names b.members) := by
  cases h with
  | object h => exact h
  | array _ => exact List.Perm.refl _
  | refl => exact List.Perm.refl _

lemma SameTop.size (h : SameTop a b) : a.items.size = b.items.size := by
  cases h with
  | object _ => rfl
  | array h => exact h
  | refl => rfl

lemma SameTop.exists_child? (h : SameTop a b) {s : Step} {v : Json} (hv : child? s a = some v) :
    ∃ w, child? s b = some w := by
  cases s with
  | key name => exact Fields.get?_of_mem_names (h.names.mem_iff.mp (Fields.mem_names_of_get? hv))
  | index i =>
    have hi : i < b.items.size := h.size ▸ (Array.getElem?_eq_some_iff.mp hv).1
    exact ⟨b.items[i], Array.getElem?_eq_getElem hi⟩

end SameTop

section Reordered

variable {a b c : Json}

lemma sizeOf_child?_lt {s : Step} {v : Json} (h : child? s a = some v) : sizeOf v < sizeOf a := by
  cases s with
  | key name =>
    cases a with
    | object ms =>
      have hm : sizeOf (name, v) < sizeOf ms := List.sizeOf_lt_of_mem (Fields.mem_of_get? h)
      simp only [Prod.mk.sizeOf_spec] at hm
      simp only [object.sizeOf_spec]
      omega
    | _ => exact absurd h (by simp [child?, members, Fields.get?_nil])
  | index i =>
    cases a with
    | array xs =>
      have hm : sizeOf v < sizeOf xs := Array.sizeOf_lt_of_mem (Array.mem_of_getElem? h)
      simp only [array.sizeOf_spec]
      omega
    | _ => exact absurd h (by simp [child?, items])

lemma Reordered.refl (a : Json) : Reordered a a := by
  refine .intro (.refl a) ?_
  intro s v w hv hw
  obtain rfl := Option.some.inj (hv.symm.trans hw)
  have hlt := sizeOf_child?_lt hv
  exact Reordered.refl v
termination_by sizeOf a

lemma Reordered.of_children (h : SameTop a b) (hc : ∀ s, child? s a = child? s b) :
    Reordered a b := by
  refine .intro h ?_
  intro s v w hv hw
  rw [hc, hw] at hv
  obtain rfl := Option.some.inj hv
  exact Reordered.refl w

lemma Reordered.symm (h : Reordered a b) : Reordered b a := by
  induction h with
  | intro htop _ ih => exact .intro htop.symm fun s v w hv hw => ih s w v hw hv

lemma Reordered.trans (h : Reordered a b) (h' : Reordered b c) : Reordered a c := by
  induction h generalizing c with
  | intro htop _ ih =>
    cases h' with
    | intro htop' hbelow' =>
      refine .intro (htop.trans htop') ?_
      intro s v w hv hw
      obtain ⟨u, hu⟩ := htop.exists_child? hv
      exact ih s v u hv hu (hbelow' s u w hu hw)

lemma Reordered.child (h : Reordered a b) (s : Step) :
    Reordered ((child? s a).getD .null) ((child? s b).getD .null) := by
  obtain ⟨htop, hbelow⟩ := h
  cases hv : child? s a with
  | some v =>
    obtain ⟨w, hw⟩ := htop.exists_child? hv
    rw [hw]
    exact hbelow s v w hv hw
  | none =>
    cases hw : child? s b with
    | none => exact .refl .null
    | some w =>
      obtain ⟨v, hv'⟩ := htop.symm.exists_child? hw
      exact absurd (hv.symm.trans hv') (by simp)

lemma Reordered.at? (h : Reordered a b) {path : Path} {v : Json} (hv : Json.at? path a = some v) :
    ∃ w, Json.at? path b = some w ∧ Reordered v w := by
  induction path generalizing a b with
  | nil =>
    obtain rfl := Option.some.inj hv
    exact ⟨b, rfl, h⟩
  | cons s path ih =>
    obtain ⟨htop, hbelow⟩ := h
    rw [at?_cons] at hv
    obtain ⟨x, hx, hv⟩ := Option.bind_eq_some_iff.mp hv
    obtain ⟨y, hy⟩ := htop.exists_child? hx
    obtain ⟨w, hw, hr⟩ := ih (hbelow s x y hx hy) hv
    exact ⟨w, by rw [at?_cons, hy, Option.bind_some, hw], hr⟩

lemma Reordered.at?_null (h : Reordered a b) {path : Path} (hn : Json.at? path a = some .null) :
    Json.at? path b = some .null := by
  obtain ⟨w, hw, htop, _⟩ := h.at? hn
  cases htop
  exact hw

lemma Reordered.at?_array (h : Reordered a b) {path : Path} {xs : Array Json}
    (hx : Json.at? path a = some (.array xs)) :
    ∃ ys, Json.at? path b = some (.array ys) ∧ ys.size = xs.size := by
  obtain ⟨w, hw, htop, _⟩ := h.at? hx
  cases htop with
  | array hsize => exact ⟨_, hw, hsize.symm⟩
  | refl => exact ⟨xs, hw, rfl⟩

end Reordered

end Json

namespace FlatTree

open Json (Reordered SameTop)

section Within

variable {a b : Json} {f g : Json → Json}

lemma names_members_within (name : String) (f : Json → Json) (a : Json) :
    Fields.names (within (.key name) f a).members =
      if name ∈ Fields.names a.members then Fields.names a.members
      else Fields.names a.members ++ [name] :=
  Fields.names_alter name _ _

lemma sameTop_within_key {m n : String}
    (h : (Fields.names (within (.key m) f a).members).Perm
      (Fields.names (within (.key n) g b).members)) :
    SameTop (within (.key m) f a) (within (.key n) g b) :=
  .object h

lemma sameTop_within_index {i j : Nat}
    (h : (within (.index i) f a).items.size = (within (.index j) g b).items.size) :
    SameTop (within (.index i) f a) (within (.index j) g b) :=
  .array h

lemma sameTop_within (h : SameTop a b) (s : Step) (f g : Json → Json) :
    SameTop (within s f a) (within s g b) := by
  cases s with
  | key name =>
    apply sameTop_within_key
    simp only [names_members_within, h.names.mem_iff]
    split
    · exact h.names
    · exact h.names.append_right [name]
  | index i =>
    apply sameTop_within_index
    rw [size_items_within, size_items_within, h.size]

lemma reordered_within (h : Reordered a b) (s : Step)
    (hf : ∀ v w, Reordered v w → Reordered (f v) (g w)) :
    Reordered (within s f a) (within s g b) := by
  have hchild := h.child
  obtain ⟨htop, hbelow⟩ := h
  refine .intro (sameTop_within htop s f g) ?_
  intro t v w hv hw
  by_cases hts : s = t
  · subst hts
    rw [child?_within_self] at hv hw
    obtain rfl := Option.some.inj hv
    obtain rfl := Option.some.inj hw
    exact hf _ _ (hchild s)
  · cases s with
    | key m =>
      cases t with
      | key n =>
        rw [child?_within_of_ne_key _ _ (by simpa using hts)] at hv hw
        exact hbelow _ v w hv hw
      | index j => exact absurd hv (by simp)
    | index i =>
      cases t with
      | key n => exact absurd hv (by simp)
      | index j =>
        rw [child?_within_of_ne_index _ _ (by simpa using hts)] at hv hw
        split at hv
        · next hj =>
          rw [if_pos hj] at hw
          obtain rfl := Option.some.inj hv
          obtain rfl := Option.some.inj hw
          exact hchild (.index j)
        · next hj =>
          rw [if_neg hj] at hw
          exact hbelow _ v w hv hw

lemma reordered_within_within (s : Step) (f g : Json → Json) (a : Json) :
    Reordered (within s f (within s g a)) (within s (fun v => f (g v)) a) := by
  apply Reordered.of_children
  · cases s with
    | key name =>
      apply sameTop_within_key
      simp only [names_members_within]
      split <;> simp_all
    | index i =>
      apply sameTop_within_index
      simp only [size_items_within]
      omega
  · intro t
    by_cases hts : s = t
    · subst hts
      simp [child?_within_self]
    · match s, t with
      | .key m, .key n =>
        have hne : m ≠ n := by simpa using hts
        simp only [child?_within_of_ne_key _ _ hne]
      | .index i, .index j =>
        have hne : i ≠ j := by simpa using hts
        simp only [child?_within_of_ne_index _ _ hne]
        split <;> simp
      | .key m, .index j => simp
      | .index i, .key n => simp

lemma reordered_within_comm_key {m n : String} (h : m ≠ n) (f g : Json → Json) (a : Json) :
    Reordered (within (.key m) f (within (.key n) g a)) (within (.key n) g (within (.key m) f a)) := by
  apply Reordered.of_children
  · apply sameTop_within_key
    simp only [names_members_within]
    by_cases hm : m ∈ Fields.names a.members <;> by_cases hn : n ∈ Fields.names a.members
    · simp [hm, hn]
    · simp [hm, hn]
    · simp [hm, hn]
    · have hswap : [n, m].Perm [m, n] := List.Perm.swap m n []
      simpa [hm, hn, h, h.symm] using hswap.append_left (Fields.names a.members)
  · intro t
    cases t with
    | key k =>
      by_cases hk : m = k
      · subst hk
        rw [child?_within_self, child?_within_of_ne_key _ _ h.symm,
          child?_within_of_ne_key _ _ h.symm, child?_within_self]
      · rw [child?_within_of_ne_key _ _ hk]
        by_cases hn : n = k
        · subst hn
          rw [child?_within_self, child?_within_self, child?_within_of_ne_key _ _ hk]
        · rw [child?_within_of_ne_key _ _ hn, child?_within_of_ne_key _ _ hn,
            child?_within_of_ne_key _ _ hk]
    | index i => rw [child?_index_within_key, child?_index_within_key]

-- The item that one of the changes is about is the same whichever change comes first.
lemma child?_within_comm_index {i j : Nat} (h : i ≠ j) (f g : Json → Json) (a : Json) :
    Json.child? (.index i) (within (.index i) f (within (.index j) g a)) =
      Json.child? (.index i) (within (.index j) g (within (.index i) f a)) := by
  rw [child?_within_self, child?_within_of_ne_index _ _ h.symm, child?_within_of_ne_index _ _ h.symm,
    child?_within_self]
  split <;> rfl

lemma reordered_within_comm_index {i j : Nat} (h : i ≠ j) (f g : Json → Json) (a : Json) :
    Reordered (within (.index i) f (within (.index j) g a))
      (within (.index j) g (within (.index i) f a)) := by
  apply Reordered.of_children
  · apply sameTop_within_index
    simp only [size_items_within]
    omega
  · intro t
    cases t with
    | key k => rw [child?_key_within_index, child?_key_within_index]
    | index k =>
      by_cases hi : i = k
      · subst hi
        exact child?_within_comm_index h f g a
      · by_cases hj : j = k
        · subst hj
          exact (child?_within_comm_index h.symm g f a).symm
        · simp only [child?_within_of_ne_index _ _ hi, child?_within_of_ne_index _ _ hj]
          split <;> split <;> rfl

end Within

section Fill

variable {v w a b : Json} {p q : Path} {ls more : List (Path × Json)}

lemma reordered_put (h : Reordered a b) (v : Json) (p : Path) :
    Reordered (put v p a) (put v p b) := by
  induction p generalizing a b with
  | nil => exact .refl v
  | cons s p ih =>
    rw [put_cons, put_cons]
    exact reordered_within h s fun x y hxy => ih hxy

lemma reordered_put_comm (h : Path.Parted p q) (v w a : Json) :
    Reordered (put v p (put w q a)) (put w q (put v p a)) := by
  induction h generalizing a with
  | keys hne =>
    simp only [put_cons]
    exact reordered_within_comm_key hne _ _ a
  | items hne =>
    simp only [put_cons]
    exact reordered_within_comm_index hne _ _ a
  | @step s p q _ ih =>
    simp only [put_cons]
    have hboth : Reordered (within s (fun x => put v p (put w q x)) a)
        (within s (fun x => put w q (put v p x)) a) :=
      reordered_within (.refl a) s fun x y hxy =>
        (ih x).trans (reordered_put (reordered_put hxy v p) w q)
    exact (reordered_within_within s _ _ a).trans
      (hboth.trans (reordered_within_within s _ _ a).symm)

lemma reordered_fill (h : Reordered a b) (ls : List (Path × Json)) :
    Reordered (fill a ls) (fill b ls) := by
  induction ls generalizing a b with
  | nil => exact h
  | cons l ls ih => exact ih (reordered_put h l.2 l.1)

-- Each swap in the permutation is of two writes at parted paths, done to what the writes before left.
lemma reordered_fill_perm (h : ls.Perm more) (hp : ls.Pairwise fun k l => Path.Parted k.1 l.1)
    (a : Json) : Reordered (fill a ls) (fill a more) := by
  induction h generalizing a with
  | nil => exact .refl a
  | cons l _ ih => exact ih (List.pairwise_cons.mp hp).2 _
  | swap k l ls =>
    have hkl : Path.Parted k.1 l.1 :=
      ((List.pairwise_cons.mp hp).1 k List.mem_cons_self).symm
    exact reordered_fill (reordered_put_comm hkl k.2 l.2 a) ls
  | trans h _ ih ih' =>
    have hsymm : ∀ {k l : Path × Json}, Path.Parted k.1 l.1 → Path.Parted l.1 k.1 :=
      fun hkl => hkl.symm
    exact (ih hp a).trans (ih' (h.pairwise hp hsymm) a)

end Fill

section Entries

variable {flat other : FlatTree}

def Parting (flat : FlatTree) : Prop :=
  flat.Pairwise fun k l =>
    ∀ p q, Path.parse k.1 = .ok p → Path.parse l.1 = .ok q → ¬Path.Conflict p q

lemma parted_spelled (h : ∀ key ∈ Fields.names flat, ∃ path, Path.parse key = .ok path)
    (hc : Parting flat) : (flat.map spelled).Pairwise fun k l => Path.Parted k.1 l.1 := by
  rw [List.pairwise_map]
  refine List.Pairwise.imp_of_mem ?_ hc
  intro k l hk hl hkl
  obtain ⟨p, hp⟩ := h k.1 (List.mem_map_of_mem hk)
  obtain ⟨q, hq⟩ := h l.1 (List.mem_map_of_mem hl)
  rw [spelled, spelled, pathOf_eq hp, pathOf_eq hq]
  exact Path.parted_of_not_conflict (hkl p q hp hq)

lemma exists_path_perm (hperm : flat.Perm other)
    (h : ∀ key ∈ Fields.names flat, ∃ path, Path.parse key = .ok path) :
    ∀ key ∈ Fields.names other, ∃ path, Path.parse key = .ok path :=
  fun key hk => h key ((hperm.map Prod.fst).mem_iff.mpr hk)

lemma parting_perm (hperm : flat.Perm other) (hc : Parting flat) : Parting other := by
  apply hperm.pairwise hc
  intro k l hkl p q hp hq
  exact (Path.parted_of_not_conflict (hkl q p hq hp)).symm.not_conflict

lemma unchallenged_of_parting (hc : Parting flat) {key : String} {path : Path} {value : Json}
    (hm : (key, value) ∈ flat) (hp : Path.parse key = .ok path) :
    Unchallenged flat key path value := by
  obtain ⟨before, after, rfl⟩ := List.append_of_mem hm
  refine ⟨before, after, rfl, hp, ?_⟩
  intro later hl q hq
  have hafter := (List.pairwise_append.mp hc).2.1
  exact (List.pairwise_cons.mp hafter).1 later hl path q hp hq

/-- Entries no two of which conflict describe a tree in every order, and in every order the same tree but
for the order of members; all entries are in it, the arrays have the same lengths and `null` stands at
the same places. -/
theorem toTree_perm (hperm : flat.Perm other)
    (h : ∀ key ∈ Fields.names flat, ∃ path, Path.parse key = .ok path) (hc : Parting flat) :
    ∃ tree again, toTree flat = .ok tree ∧ toTree other = .ok again ∧
      Reordered (.object tree) (.object again) ∧
      (∀ key path value, (key, value) ∈ flat → Path.parse key = .ok path →
        Json.at? path (.object tree) = some value ∧ Json.at? path (.object again) = some value) ∧
      (∀ path, Json.at? path (.object tree) = some .null ↔
        Json.at? path (.object again) = some .null) ∧
      ∀ path n, (∃ xs, Json.at? path (.object tree) = some (.array xs) ∧ xs.size = n) ↔
        ∃ ys, Json.at? path (.object again) = some (.array ys) ∧ ys.size = n := by
  have hother := exists_path_perm hperm h
  obtain ⟨tree, ht, hfill⟩ := toTree_eq_fill h
  obtain ⟨again, ha, hfill'⟩ := toTree_eq_fill hother
  have hr := reordered_fill_perm (hperm.map spelled) (parted_spelled h hc) (.object [])
  rw [hfill, hfill'] at hr
  refine ⟨tree, again, ht, ha, hr, ?_, fun path => ⟨hr.at?_null, hr.symm.at?_null⟩, ?_⟩
  · intro key path value hm hp
    rw [← hfill, ← hfill']
    have hc' := parting_perm hperm hc
    have hm' := hperm.mem_iff.mp hm
    exact ⟨at?_of_unchallenged h (unchallenged_of_parting hc hm hp),
      at?_of_unchallenged hother (unchallenged_of_parting hc' hm' hp)⟩
  · intro path n
    constructor
    · rintro ⟨xs, hx, rfl⟩
      exact hr.at?_array hx
    · rintro ⟨ys, hy, rfl⟩
      exact hr.symm.at?_array hy

def racks : FlatTree :=
  [("a[2].x", .number (.whole 1)), ("a[0]", .object [("z", .null)]), ("b.c", .bool true),
    ("b.d", .array #[])]

def racksPaths : List (Path × Json) :=
  [([.key "a", .index 2, .key "x"], .number (.whole 1)), ([.key "a", .index 0], .object [("z", .null)]),
    ([.key "b", .key "c"], .bool true), ([.key "b", .key "d"], .array #[])]

def racksTree : Json.Members :=
  [("a", .array #[.object [("z", .null)], .null, .object [("x", .number (.whole 1))]]),
    ("b", .object [("c", .bool true), ("d", .array #[])])]

def racksAgain : Json.Members :=
  [("b", .object [("d", .array #[]), ("c", .bool true)]),
    ("a", .array #[.object [("z", .null)], .null, .object [("x", .number (.whole 1))]])]

lemma paths_racks : ∀ key ∈ Fields.names racks, ∃ path, Path.parse key = .ok path :=
  exists_path_of_all rfl

lemma spelled_racks : racks.map spelled = racksPaths := rfl

lemma parting_racks : Parting racks := by
  have hab : ∀ p q, Path.Parted (.key "a" :: p) (.key "b" :: q) := fun _ _ => .keys (by decide)
  have ha : Path.Parted [.key "a", .index 2, .key "x"] [.key "a", .index 0] :=
    .step (.items (by decide))
  have hb : Path.Parted [.key "b", .key "c"] [.key "b", .key "d"] := .step (.keys (by decide))
  have hparted : (racks.map spelled).Pairwise fun k l => Path.Parted k.1 l.1 := by
    rw [spelled_racks, racksPaths]
    simp [hab, ha, hb]
  rw [List.pairwise_map] at hparted
  refine hparted.imp ?_
  intro k l hkl p q hp hq
  rw [spelled, spelled, pathOf_eq hp, pathOf_eq hq] at hkl
  exact hkl.not_conflict

theorem toTree_perm_racks : racks.Perm racks.reverse ∧
    (∀ key ∈ Fields.names racks, ∃ path, Path.parse key = .ok path) ∧ Parting racks ∧
    toTree racks = .ok racksTree ∧ toTree racks.reverse = .ok racksAgain ∧
    Reordered (.object racksTree) (.object racksAgain) := by
  have hperm : racks.Perm racks.reverse := (List.reverse_perm racks).symm
  have ht : toTree racks = .ok racksTree := toTree_of_spelled paths_racks spelled_racks rfl
  have hs : racks.reverse.map spelled = racksPaths.reverse := by rw [List.map_reverse, spelled_racks]
  have ha : toTree racks.reverse = .ok racksAgain :=
    toTree_of_spelled (exists_path_perm hperm paths_racks) hs rfl
  obtain ⟨tree, again, htree, hagain, hr, _⟩ := toTree_perm hperm paths_racks parting_racks
  obtain rfl := Except.ok.inj (ht.symm.trans htree)
  obtain rfl := Except.ok.inj (ha.symm.trans hagain)
  exact ⟨hperm, paths_racks, parting_racks, ht, ha, hr⟩

end Entries

end FlatTree

end TreeMarkup
