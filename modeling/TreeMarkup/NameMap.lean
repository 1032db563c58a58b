namespace TreeMarkup

abbrev NameMap (α : Type) := List (String × α)

namespace NameMap

variable {α : Type}

def get? (m : NameMap α) (name : String) : Option α :=
  m.lookup name

def contains (m : NameMap α) (name : String) : Bool :=
  (get? m name).isSome

def names (m : NameMap α) : List String :=
  m.map Prod.fst

def Sorted (m : NameMap α) : Prop :=
  (names m).Pairwise (· < ·)

def insert (name : String) (value : α) : NameMap α → NameMap α
  | [] => [(name, value)]
  | (n, v) :: rest =>
    if name < n then (name, value) :: (n, v) :: rest
    else if name = n then (name, value) :: rest
    else (n, v) :: insert name value rest

theorem get?_nil (name : String) : get? ([] : NameMap α) name = none := rfl

theorem get?_cons (n : String) (v : α) (m : NameMap α) (name : String) :
    get? ((n, v) :: m) name = if n = name then some v else get? m name := by
  unfold get?
  rw [List.lookup_cons]
  by_cases h : n = name
  · subst h
    simp
  · have hb : (name == n) = false := beq_eq_false_iff_ne.2 (Ne.symm h)
    simp [hb, h]

theorem get?_insert (name : String) (value : α) (m : NameMap α) (k : String) :
    get? (insert name value m) k = if name = k then some value else get? m k := by
  induction m with
  | nil => simp [insert, get?_cons, get?_nil]
  | cons p rest ih =>
    obtain ⟨n, v⟩ := p
    unfold insert
    split
    · simp [get?_cons]
    · split
      · next h =>
        subst h
        by_cases hk : name = k <;> simp [get?_cons, hk]
      · next h =>
        by_cases hk : name = k
        · subst hk
          simp [get?_cons, ih, Ne.symm h]
        · simp [get?_cons, ih, hk]

theorem get?_insert_of_ne {name k : String} (h : k ≠ name) (value : α) (m : NameMap α) :
    get? (insert name value m) k = get? m k := by
  rw [get?_insert, if_neg (Ne.symm h)]

theorem names_insert (name : String) (value other : α) (m : NameMap α) :
    names (insert name value m) = names (insert name other m) := by
  induction m with
  | nil => rfl
  | cons p rest ih =>
    obtain ⟨n, v⟩ := p
    simp only [names] at ih
    by_cases hlt : name < n
    · simp [insert, names, hlt]
    · by_cases he : name = n <;> simp [insert, names, hlt, he, ih]

theorem mem_insert {name : String} {value : α} {m : NameMap α} {e : String × α}
    (h : e ∈ insert name value m) : e = (name, value) ∨ e ∈ m := by
  induction m with
  | nil => exact Or.inl (List.mem_singleton.1 h)
  | cons p rest ih =>
    obtain ⟨n, v⟩ := p
    rw [insert] at h
    split at h
    · exact List.mem_cons.1 h
    · split at h
      · exact (List.mem_cons.1 h).imp id (List.mem_cons_of_mem (n, v))
      · rcases List.mem_cons.1 h with rfl | h
        · exact Or.inr List.mem_cons_self
        · exact (ih h).imp id (List.mem_cons_of_mem (n, v))

theorem mem_names_insert {name k : String} {value : α} {m : NameMap α}
    (h : k ∈ names (insert name value m)) : k = name ∨ k ∈ names m := by
  obtain ⟨e, he, rfl⟩ := List.mem_map.1 h
  exact (mem_insert he).imp (congrArg Prod.fst) (List.mem_map_of_mem (f := Prod.fst))

theorem sorted_insert {m : NameMap α} (h : Sorted m) (name : String) (value : α) :
    Sorted (insert name value m) := by
  induction m with
  | nil => exact List.pairwise_singleton _ _
  | cons p rest ih =>
    obtain ⟨n, v⟩ := p
    obtain ⟨hn, hr⟩ := List.pairwise_cons.1 h
    rw [insert]
    split
    · next hlt =>
      refine List.pairwise_cons.2 ⟨?_, h⟩
      intro k hk
      rcases List.mem_cons.1 hk with rfl | hk
      · exact hlt
      · exact String.lt_trans hlt (hn k hk)
    · next hlt =>
      split
      · next he =>
        subst he
        exact h
      · next hne =>
        refine List.pairwise_cons.2 ⟨?_, ih hr⟩
        intro k hk
        rcases mem_names_insert hk with rfl | hk
        · exact Std.lt_of_le_of_ne (String.not_lt.1 hlt) (Ne.symm hne)
        · exact hn k hk

theorem mem_of_get? {m : NameMap α} {name : String} {value : α} (h : get? m name = some value) :
    (name, value) ∈ m := by
  obtain ⟨before, after, hs, _⟩ := List.lookup_eq_some_iff.1 h
  rw [hs]
  exact List.mem_append_right _ List.mem_cons_self

theorem get?_of_mem {m : NameMap α} (h : (names m).Nodup) {name : String} {value : α}
    (hm : (name, value) ∈ m) : get? m name = some value := by
  induction m with
  | nil => exact absurd hm List.not_mem_nil
  | cons p rest ih =>
    obtain ⟨n, v⟩ := p
    obtain ⟨hn, hr⟩ := List.nodup_cons.1 h
    rw [get?_cons]
    rcases List.mem_cons.1 hm with he | hm
    · obtain ⟨rfl, rfl⟩ := Prod.mk.inj he
      exact if_pos rfl
    · have hne : n ≠ name := by
        rintro rfl
        exact hn (List.mem_map.2 ⟨_, hm, rfl⟩)
      rw [if_neg hne, ih hr hm]

theorem insert_perm {name : String} {m : NameMap α} (h : name ∉ names m) (value : α) :
    (insert name value m).Perm ((name, value) :: m) := by
  induction m with
  | nil => exact List.Perm.refl _
  | cons p rest ih =>
    obtain ⟨n, v⟩ := p
    have hn : name ≠ n := fun he => h (List.mem_cons.2 (Or.inl he))
    have hr : name ∉ names rest := fun hm => h (List.mem_cons.2 (Or.inr hm))
    by_cases hlt : name < n
    · rw [insert, if_pos hlt]
    · rw [insert, if_neg hlt, if_neg hn]
      exact ((ih hr).cons (n, v)).trans (List.Perm.swap _ _ _)

end NameMap
end TreeMarkup
