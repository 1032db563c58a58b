import TreeMarkup.Proofs.FlatTree.RoundTrip
import TreeMarkup.Proofs.Path.Conflict

/-! What writing a value at a path does to a tree: the value can be read back, values at paths that part
from it stay, and no leaf arises but the value and `null` in the gap before an item. -/

namespace TreeMarkup

namespace Json

def child? : Step → Json → Option Json
  | .key name, value => Fields.get? value.members name
  | .index i, value => value.items[i]?

lemma at?_cons (s : Step) (p : Path) (value : Json) :
    at? (s :: p) value = (child? s value).bind (at? p) := by
  cases s <;> cases value <;> simp [at?, child?, members, items, Fields.get?_nil]

lemma at?_append (p q : Path) (value : Json) : at? (p ++ q) value = (at? p value).bind (at? q) := by
  induction p generalizing value with
  | nil => simp [at?]
  | cons s p ih =>
    rw [List.cons_append, at?_cons, at?_cons, Option.bind_assoc]
    exact congrArg _ (funext ih)

lemma regularMembers_iff {ms : List (String × Json)} :
    RegularMembers ms ↔ ∀ m ∈ ms, m.2.Regular := by
  induction ms with
  | nil => simp [RegularMembers]
  | cons m ms ih => simp [RegularMembers, ih]

lemma regularItems_iff {items : List Json} : RegularItems items ↔ ∀ x ∈ items, x.Regular := by
  induction items with
  | nil => simp [RegularItems]
  | cons x xs ih => simp [RegularItems, ih]

lemma regular_array (xs : Array Json) : (Json.array xs).Regular ↔ ∀ x ∈ xs, x.Regular := by
  obtain ⟨xs⟩ := xs
  simp [Regular, regularItems_iff]

lemma Regular.members {value : Json} (h : value.Regular) :
    Fields.Distinct value.members ∧ ∀ m ∈ value.members, m.2.Regular := by
  cases value with
  | object ms => exact ⟨h.1, regularMembers_iff.mp h.2⟩
  | _ => exact ⟨Fields.distinct_nil, by simp [Json.members]⟩

lemma Regular.items {value : Json} (h : value.Regular) : ∀ x ∈ value.items, x.Regular := by
  cases value with
  | array xs => exact (regular_array xs).mp h
  | _ => simp [Json.items]

lemma regular_iff {value : Json} : value.Regular ↔ Fields.Distinct value.members ∧
    (∀ m ∈ value.members, m.2.Regular) ∧ ∀ x ∈ value.items, x.Regular := by
  refine ⟨fun h => ⟨h.members.1, h.members.2, h.items⟩, ?_⟩
  rintro ⟨hd, hm, hi⟩
  cases value with
  | object ms => exact ⟨hd, regularMembers_iff.mpr hm⟩
  | array xs => exact (regular_array xs).mpr hi
  | _ => trivial

lemma IsLeaf.regular {value : Json} (h : value.IsLeaf) : value.Regular := by
  cases value with
  | object ms =>
    obtain rfl := (isLeaf_object ms).mp h
    exact ⟨Fields.distinct_nil, trivial⟩
  | array xs =>
    obtain rfl := (isLeaf_array xs).mp h
    trivial
  | _ => trivial

end Json

namespace FlatTree

def Skipped (q p : Path) : Prop :=
  ∃ common j i rest, q = common ++ [.index j] ∧ p = common ++ .index i :: rest ∧ j < i

lemma Skipped.step {q p : Path} (h : Skipped q p) (s : Step) : Skipped (s :: q) (s :: p) := by
  obtain ⟨common, j, i, rest, rfl, rfl, hlt⟩ := h
  exact ⟨s :: common, j, i, rest, rfl, rfl, hlt⟩

lemma Skipped.not_prefix {q p : Path} (h : Skipped q p) : ¬q <+: p := by
  obtain ⟨common, j, i, rest, rfl, rfl, hlt⟩ := h
  intro hpre
  have hj := (List.cons_prefix_cons.mp ((List.prefix_append_right_inj common).mp hpre)).1
  obtain rfl := Step.index.inj hj
  exact Nat.lt_irrefl _ hlt

section Within

def within (s : Step) (f : Json → Json) (tree : Json) : Json :=
  match s with
  | .key name => .object (Fields.alter name (fun old => f (old.getD .null)) tree.members)
  | .index i => .array ((padded (i + 1) tree.items).modify i f)

lemma put_cons (v : Json) (s : Step) (p : Path) (tree : Json) :
    put v (s :: p) tree = within s (put v p) tree := by
  cases s <;> rfl

variable (f : Json → Json) (tree : Json)

lemma size_padded (n : Nat) (items : Array Json) : (padded n items).size = max n items.size := by
  rw [padded, Array.size_append, Array.size_replicate]
  omega

lemma getElem?_padded (n : Nat) (items : Array Json) (j : Nat) :
    (padded n items)[j]? = if j < items.size then items[j]? else if j < n then some .null else none := by
  rw [padded, Array.getElem?_append]
  split
  · rfl
  · rw [Array.getElem?_replicate]
    congr 1
    simp
    omega

lemma size_items_within (i : Nat) :
    (within (.index i) f tree).items.size = max (i + 1) tree.items.size := by
  rw [within, Json.items, Array.size_modify, size_padded]

lemma child?_within_self (s : Step) :
    Json.child? s (within s f tree) = some (f ((Json.child? s tree).getD .null)) := by
  cases s with
  | key name => simp [within, Json.child?, Json.members, Fields.get?_alter]
  | index i =>
    rw [within, Json.child?, Json.items, Array.getElem?_modify, if_pos rfl, getElem?_padded]
    split
    · next hi => simp [Json.child?, hi]
    · next hi => simp [Json.child?, hi]

lemma child?_within_of_ne_key {m n : String} (h : m ≠ n) :
    Json.child? (.key n) (within (.key m) f tree) = Json.child? (.key n) tree := by
  simp [within, Json.child?, Json.members, Fields.get?_alter, h]

lemma child?_within_of_ne_index {i j : Nat} (h : i ≠ j) :
    Json.child? (.index j) (within (.index i) f tree) =
      if j < i then some ((Json.child? (.index j) tree).getD .null)
      else Json.child? (.index j) tree := by
  rw [within, Json.child?, Json.items, Array.getElem?_modify, if_neg h, getElem?_padded]
  by_cases hj : j < tree.items.size
  · simp [Json.child?, hj]
  · have hlt : j < i + 1 ↔ j < i := by omega
    have hnone : tree.items[j]? = none := Array.getElem?_eq_none (by omega)
    simp only [hj, if_false, hlt, Json.child?, hnone, Option.getD_none]

@[simp] lemma child?_index_within_key (m : String) (j : Nat) :
    Json.child? (.index j) (within (.key m) f tree) = none := rfl

@[simp] lemma child?_key_within_index (i : Nat) (n : String) :
    Json.child? (.key n) (within (.index i) f tree) = none := rfl

variable {f tree} {s : Step}

lemma mem_members_within {m : String × Json} (h : m ∈ (within s f tree).members) :
    m ∈ tree.members ∨ ∃ name w, s = .key name ∧ (w = .null ∨ (name, w) ∈ tree.members) ∧
      m = (name, f w) := by
  cases s with
  | key name =>
    rcases Fields.mem_alter h with hold | rfl | ⟨w, hw, rfl⟩
    · exact Or.inl hold
    · exact Or.inr ⟨name, .null, rfl, Or.inl rfl, rfl⟩
    · exact Or.inr ⟨name, w, rfl, Or.inr hw, rfl⟩
  | index i => exact absurd h (by simp [within, Json.members])

lemma mem_padded {n : Nat} {items : Array Json} {x : Json} (h : x ∈ padded n items) :
    x = .null ∨ x ∈ items := by
  rcases Array.mem_append.mp h with h | h
  · exact Or.inr h
  · exact Or.inl (Array.mem_replicate.mp h).2

lemma mem_items_within {x : Json} (h : x ∈ (within s f tree).items) :
    x = .null ∨ x ∈ tree.items ∨ ∃ w, (w = .null ∨ w ∈ tree.items) ∧ x = f w := by
  cases s with
  | key name => exact absurd h (by simp [within, Json.items])
  | index i =>
    obtain ⟨j, hj⟩ := Array.mem_iff_getElem?.mp h
    rw [within, Json.items, Array.getElem?_modify] at hj
    split at hj
    · obtain ⟨w, hw, rfl⟩ := Option.map_eq_some_iff.mp hj
      exact Or.inr (Or.inr ⟨w, mem_padded (Array.mem_of_getElem? hw), rfl⟩)
    · rcases mem_padded (Array.mem_of_getElem? hj) with hx | hx
      · exact Or.inl hx
      · exact Or.inr (Or.inl hx)

lemma distinct_members_within (h : Fields.Distinct tree.members) :
    Fields.Distinct (within s f tree).members := by
  cases s with
  | key name => exact Fields.distinct_alter h name _
  | index i => exact Fields.distinct_nil

end Within

section Put

variable (v : Json) (p : Path) (tree : Json)

lemma at?_put_self : Json.at? p (put v p tree) = some v := by
  induction p generalizing tree with
  | nil => simp [put, Json.at?]
  | cons s p ih => rw [Json.at?_cons, put_cons, child?_within_self, Option.bind_some, ih]

variable {v p tree} {q : Path} {w : Json}

lemma at?_put_of_parted (h : Path.Parted p q) (hw : Json.at? q tree = some w) :
    Json.at? q (put v p tree) = some w := by
  induction h generalizing tree with
  | keys hne => rwa [put_cons, Json.at?_cons, child?_within_of_ne_key _ tree hne, ← Json.at?_cons]
  | @items i j p q hne =>
    rw [put_cons]
    rw [Json.at?_cons] at hw ⊢
    obtain ⟨child, hc, hw⟩ := Option.bind_eq_some_iff.mp hw
    rw [child?_within_of_ne_index _ tree hne, hc]
    split <;> exact hw
  | @step s p q _ ih =>
    rw [put_cons]
    rw [Json.at?_cons] at hw ⊢
    obtain ⟨child, hc, hw⟩ := Option.bind_eq_some_iff.mp hw
    rw [child?_within_self, hc]
    exact ih hw

lemma not_isLeaf_put (s : Step) : ¬(put v (s :: p) tree).IsLeaf := by
  cases s with
  | key name =>
    intro hl
    have hn := (Json.isLeaf_object _).mp hl
    cases hm : tree.members with
    | nil => simp [hm, Fields.alter] at hn
    | cons m ms =>
      rw [hm, Fields.alter] at hn
      split at hn <;> simp at hn
  | index i =>
    intro hl
    have hn : (padded (i + 1) tree.items).size = 0 := by
      simpa using congrArg Array.size ((Json.isLeaf_array _).mp hl)
    rw [size_padded] at hn
    omega

lemma leaf_put_step {s t : Step} {q : Path} (hne : s ≠ t)
    (hq : Json.at? (t :: q) (put v (s :: p) tree) = some w) :
    Json.at? (t :: q) tree = some w ∨
      (w = .null ∧ Json.at? (t :: q) tree = none ∧ Skipped (t :: q) (s :: p)) := by
  rw [put_cons] at hq
  rw [Json.at?_cons] at hq ⊢
  match s, t with
  | .key m, .key n =>
    rw [child?_within_of_ne_key _ tree (by simpa using hne)] at hq
    exact Or.inl hq
  | .index i, .index j =>
    rw [child?_within_of_ne_index _ tree (by simpa using hne)] at hq
    cases hc : Json.child? (.index j) tree with
    | some child =>
      rw [hc] at hq
      split at hq <;> exact Or.inl hq
    | none =>
      rw [hc] at hq
      split at hq
      · next hlt =>
        obtain ⟨rfl, rfl⟩ := (at?_leaf Json.isLeaf_null).mp hq
        exact Or.inr ⟨rfl, rfl, [], j, i, p, rfl, rfl, hlt⟩
      · exact Or.inl hq
  | .key m, .index j => exact absurd hq (by simp)
  | .index i, .key n => exact absurd hq (by simp)

lemma leaf_put (hv : v.IsLeaf) (hw : w.IsLeaf) (hq : Json.at? q (put v p tree) = some w) :
    (q = p ∧ w = v) ∨ (Json.at? q tree = some w ∧ ¬q <+: p) ∨
      (w = .null ∧ Json.at? q tree = none ∧ Skipped q p) := by
  induction p generalizing q tree with
  | nil => exact Or.inl ((at?_leaf hv).mp hq)
  | cons s p ih =>
    cases q with
    | nil =>
      obtain rfl := Option.some.inj hq
      exact absurd hw (not_isLeaf_put s)
    | cons t q =>
      by_cases hs : s = t
      · subst hs
        -- Below the common step the value is written into the old child, or into `null` for want of one.
        rw [put_cons, Json.at?_cons, child?_within_self, Option.bind_some] at hq
        rw [Json.at?_cons]
        rcases ih hq with ⟨rfl, rfl⟩ | ⟨hold, hpre⟩ | ⟨rfl, hnone, hskip⟩
        · exact Or.inl ⟨rfl, rfl⟩
        · cases hc : Json.child? s tree with
          | none =>
            rw [hc] at hold
            obtain ⟨rfl, _⟩ := (at?_leaf Json.isLeaf_null).mp hold
            exact absurd List.nil_prefix hpre
          | some child =>
            rw [hc] at hold
            exact Or.inr (Or.inl ⟨hold, fun h => hpre (List.cons_prefix_cons.mp h).2⟩)
        · refine Or.inr (Or.inr ⟨rfl, ?_, hskip.step s⟩)
          cases hc : Json.child? s tree with
          | none => rfl
          | some child =>
            rw [hc] at hnone
            exact hnone
      · rcases leaf_put_step hs hq with hold | hskip
        · exact Or.inr (Or.inl ⟨hold, fun h => hs (List.cons_prefix_cons.mp h).1.symm⟩)
        · exact Or.inr (Or.inr hskip)

end Put

lemma regular_put {v tree : Json} (hv : v.Regular) (ht : tree.Regular) (p : Path) :
    (put v p tree).Regular := by
  induction p generalizing tree with
  | nil => exact hv
  | cons s p ih =>
    have hnull : Json.null.Regular := trivial
    obtain ⟨hd, hmembers⟩ := ht.members
    rw [put_cons]
    refine Json.regular_iff.mpr ⟨distinct_members_within hd, ?_, ?_⟩
    · intro m hm
      rcases mem_members_within hm with hold | ⟨name, w, _, rfl | hw, rfl⟩
      · exact hmembers m hold
      · exact ih hnull
      · exact ih (hmembers _ hw)
    · intro x hx
      rcases mem_items_within hx with rfl | hold | ⟨w, rfl | hw, rfl⟩
      · exact hnull
      · exact ht.items x hold
      · exact ih hnull
      · exact ih (ht.items w hw)

def Gap (written : Path → Prop) (q : Path) : Prop :=
  (∃ p, written p ∧ Skipped q p) ∧ ∀ p, written p → ¬q <+: p

lemma gap_congr {written other : Path → Prop} (h : ∀ p, written p ↔ other p) (q : Path) :
    Gap written q ↔ Gap other q := by
  simp only [Gap, h]

structure Filled (ls : List (Path × Json)) (tree : Json) : Prop where
  regular : tree.Regular
  kept : ∀ l ∈ ls, Json.at? l.1 tree = some l.2
  leaves : ∀ q w, q ≠ [] → Json.at? q tree = some w → w.IsLeaf →
    (q, w) ∈ ls ∨ (w = .null ∧ Gap (· ∈ ls.map Prod.fst) q)

lemma filled_nil : Filled [] (.object []) := by
  refine ⟨⟨Fields.distinct_nil, trivial⟩, by simp, ?_⟩
  intro q w hne hq _
  exact absurd ((at?_leaf ((Json.isLeaf_object []).mpr rfl)).mp hq).1 hne

lemma Filled.put {ls : List (Path × Json)} {tree v : Json} {p : Path} (h : Filled ls tree)
    (hv : v.IsLeaf) (hp : ∀ l ∈ ls, Path.Parted p l.1) : Filled (ls ++ [(p, v)]) (put v p tree) := by
  have hmem : ∀ r, r ∈ (ls ++ [(p, v)]).map Prod.fst → r ∈ ls.map Prod.fst ∨ r = p := by
    intro r hr
    simpa using hr
  refine ⟨regular_put hv.regular h.regular p, ?_, ?_⟩
  · intro l hl
    rcases List.mem_append.mp hl with hl | hl
    · exact at?_put_of_parted (hp l hl) (h.kept l hl)
    · obtain rfl := List.mem_singleton.mp hl
      exact at?_put_self v p tree
  · intro q w hne hq hw
    rcases leaf_put hv hw hq with ⟨rfl, rfl⟩ | ⟨hold, hpre⟩ | ⟨rfl, hnone, hskip⟩
    · exact Or.inl (by simp)
    · rcases h.leaves q w hne hold hw with hm | ⟨rfl, ⟨r, hr, hskip⟩, hgap⟩
      · exact Or.inl (List.mem_append_left _ hm)
      · refine Or.inr ⟨rfl, ⟨r, by simp [hr], hskip⟩, ?_⟩
        intro r hr
        rcases hmem r hr with hr | rfl
        · exact hgap r hr
        · exact hpre
    · refine Or.inr ⟨rfl, ⟨p, by simp, hskip⟩, ?_⟩
      intro r hr hqr
      rcases hmem r hr with hr | rfl
      · obtain ⟨l, hl, rfl⟩ := List.mem_map.mp hr
        obtain ⟨more, hmore⟩ := hqr
        have hkept := h.kept l hl
        rw [← hmore, Json.at?_append, hnone] at hkept
        exact absurd hkept (by simp)
      · exact hskip.not_prefix hqr

lemma fill_invariant {I : List (Path × Json) → Json → Prop} {ls : List (Path × Json)} {tree : Json}
    (hstart : I [] tree) (hstep : ∀ done l rest t, ls = done ++ l :: rest → I done t →
      I (done ++ [l]) (put l.2 l.1 t)) : I ls (fill tree ls) := by
  have hrun : ∀ rest done t, ls = done ++ rest → I done t → I ls (fill t rest) := by
    intro rest
    induction rest with
    | nil =>
      intro done t he h
      rw [List.append_nil] at he
      exact he ▸ h
    | cons l rest ih =>
      intro done t he h
      exact ih (done ++ [l]) _ (by simp [he]) (hstep done l rest t he h)
  exact hrun ls [] tree rfl hstart

lemma filled_fill {ls : List (Path × Json)} (hl : ∀ l ∈ ls, l.2.IsLeaf)
    (hp : ls.Pairwise fun l m => Path.Parted l.1 m.1) : Filled ls (fill (.object []) ls) := by
  apply fill_invariant filled_nil
  rintro done l rest tree rfl h
  apply h.put (hl l (by simp))
  intro m hm
  exact ((List.pairwise_append.mp hp).2.2 m hm l List.mem_cons_self).symm

end FlatTree
end TreeMarkup
