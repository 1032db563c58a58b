namespace TreeMarkup

abbrev Fields (α : Type) := List (String × α)

namespace Fields

variable {α : Type}

def get? (fs : Fields α) (name : String) : Option α :=
  fs.lookup name

def contains (fs : Fields α) (name : String) : Bool :=
  (get? fs name).isSome

def names (fs : Fields α) : List String :=
  fs.map Prod.fst

def Distinct (fs : Fields α) : Prop :=
  (names fs).Nodup

def alter (name : String) (f : Option α → α) : Fields α → Fields α
  | [] => [(name, f none)]
  | (n, v) :: rest => if n = name then (n, f (some v)) :: rest else (n, v) :: alter name f rest

def insert (fs : Fields α) (name : String) (value : α) : Fields α :=
  alter name (fun _ => value) fs

def insertAll (fs : Fields α) (entries : List (String × α)) : Fields α :=
  entries.foldl (fun fs e => insert fs e.1 e.2) fs

def fill (fs more : Fields α) : Fields α :=
  fs ++ more.filter fun f => !contains fs f.1

@[simp] theorem insertAll_nil (fs : Fields α) : insertAll fs [] = fs := rfl

theorem insertAll_cons (fs : Fields α) (e : String × α) (rest : List (String × α)) :
    insertAll fs (e :: rest) = insertAll (insert fs e.1 e.2) rest := rfl

theorem get?_nil (name : String) : get? ([] : Fields α) name = none := rfl

theorem get?_cons (n : String) (v : α) (fs : Fields α) (name : String) :
    get? ((n, v) :: fs) name = if n = name then some v else get? fs name := by
  unfold get?
  rw [List.lookup_cons]
  by_cases h : n = name
  · subst h
    simp
  · have hb : (name == n) = false := beq_eq_false_iff_ne.2 (Ne.symm h)
    simp [hb, h]

theorem get?_alter (name : String) (f : Option α → α) (fs : Fields α) (k : String) :
    get? (alter name f fs) k = if name = k then some (f (get? fs name)) else get? fs k := by
  induction fs with
  | nil => simp [alter, get?_cons, get?_nil]
  | cons p rest ih =>
    obtain ⟨n, v⟩ := p
    by_cases hn : n = name
    · subst hn
      by_cases hk : n = k <;> simp [alter, get?_cons, hk]
    · by_cases hk : name = k
      · subst hk
        simp [alter, get?_cons, hn, ih]
      · simp [alter, get?_cons, hn, hk, ih]

theorem alter_eq_insert (name : String) (f : Option α → α) (fs : Fields α) :
    alter name f fs = insert fs name (f (get? fs name)) := by
  induction fs with
  | nil => rfl
  | cons p rest ih =>
    obtain ⟨n, v⟩ := p
    by_cases hn : n = name
    · simp [insert, alter, get?_cons, hn]
    · simpa [insert, alter, get?_cons, hn] using ih

theorem alter_of_not_mem {name : String} {fs : Fields α} (h : name ∉ names fs) (f : Option α → α)
    (more : Fields α) : alter name f (fs ++ more) = fs ++ alter name f more := by
  induction fs with
  | nil => rfl
  | cons p rest ih =>
    obtain ⟨n, v⟩ := p
    obtain ⟨hn, hr⟩ := not_or.1 fun hm => h (List.mem_cons.2 hm)
    have hi := ih hr
    simp [alter, Ne.symm hn, hi]

theorem get?_insert (fs : Fields α) (name : String) (value : α) (k : String) :
    get? (insert fs name value) k = if name = k then some value else get? fs k :=
  get?_alter name _ fs k

theorem get?_append (fs more : Fields α) (name : String) :
    get? (fs ++ more) name = (get? fs name).or (get? more name) :=
  List.lookup_append

theorem get?_insertAll (fs : Fields α) (entries : List (String × α)) (name : String) :
    get? (insertAll fs entries) name = (get? entries.reverse name).or (get? fs name) := by
  induction entries generalizing fs with
  | nil => rfl
  | cons e rest ih =>
    obtain ⟨n, v⟩ := e
    rw [insertAll_cons, ih, List.reverse_cons, get?_append, get?_insert, get?_cons, get?_nil,
      Option.or_assoc]
    by_cases hn : n = name <;> simp [hn]

theorem get?_filter_of_free {fs : Fields α} {name : String} (h : contains fs name = false)
    (more : Fields α) : get? (more.filter fun f => !contains fs f.1) name = get? more name := by
  induction more with
  | nil => rfl
  | cons p rest ih =>
    obtain ⟨n, v⟩ := p
    by_cases hn : n = name
    · subst hn
      simp [h, get?_cons]
    · cases hc : contains fs n <;> simp [hc, get?_cons, hn, ih]

theorem get?_fill (fs more : Fields α) (name : String) :
    get? (fill fs more) name = (get? fs name).or (get? more name) := by
  rw [fill, get?_append]
  cases hg : get? fs name with
  | some v => rfl
  | none => rw [get?_filter_of_free (by simp [contains, hg])]

theorem names_alter (name : String) (f : Option α → α) (fs : Fields α) :
    names (alter name f fs) = if name ∈ names fs then names fs else names fs ++ [name] := by
  induction fs with
  | nil => simp [alter, names]
  | cons p rest ih =>
    obtain ⟨n, v⟩ := p
    by_cases hn : n = name
    · simp [alter, names, hn]
    · have hn' : name ≠ n := fun h => hn h.symm
      simp only [names] at ih
      by_cases hm : name ∈ rest.map Prod.fst <;>
        simp_all [alter, names]

theorem names_insert (fs : Fields α) (name : String) (value : α) :
    names (insert fs name value) = if name ∈ names fs then names fs else names fs ++ [name] :=
  names_alter name _ fs

theorem distinct_alter {fs : Fields α} (h : Distinct fs) (name : String) (f : Option α → α) :
    Distinct (alter name f fs) := by
  unfold Distinct at *
  rw [names_alter]
  split
  · exact h
  · next hn => simp [List.nodup_append, h]; rintro a ha rfl; exact hn ha

theorem distinct_insert {fs : Fields α} (h : Distinct fs) (name : String) (value : α) :
    Distinct (insert fs name value) :=
  distinct_alter h name _

theorem mem_alter {name : String} {f : Option α → α} {fs : Fields α} {e : String × α}
    (h : e ∈ alter name f fs) :
    e ∈ fs ∨ e = (name, f none) ∨ ∃ v, (name, v) ∈ fs ∧ e = (name, f (some v)) := by
  induction fs with
  | nil => exact Or.inr (Or.inl (List.mem_singleton.1 h))
  | cons p rest ih =>
    obtain ⟨n, v⟩ := p
    rw [alter] at h
    split at h
    · next hn =>
      subst hn
      rcases List.mem_cons.1 h with rfl | h
      · exact Or.inr (Or.inr ⟨v, List.mem_cons_self, rfl⟩)
      · exact Or.inl (List.mem_cons_of_mem _ h)
    · rcases List.mem_cons.1 h with rfl | h
      · exact Or.inl List.mem_cons_self
      · rcases ih h with h | h | ⟨w, hw, rfl⟩
        · exact Or.inl (List.mem_cons_of_mem _ h)
        · exact Or.inr (Or.inl h)
        · exact Or.inr (Or.inr ⟨w, List.mem_cons_of_mem _ hw, rfl⟩)

theorem distinct_nil : Distinct ([] : Fields α) :=
  List.nodup_nil

theorem get?_of_mem_names {fs : Fields α} {name : String} (h : name ∈ names fs) :
    ∃ v, get? fs name = some v := by
  induction fs with
  | nil => exact absurd h List.not_mem_nil
  | cons e rest ih =>
    obtain ⟨n, v⟩ := e
    by_cases hn : n = name
    · exact ⟨v, by simp [get?_cons, hn]⟩
    · rcases List.mem_cons.1 h with rfl | h
      · exact absurd rfl hn
      · obtain ⟨w, hw⟩ := ih h
        exact ⟨w, by simp [get?_cons, hn, hw]⟩

theorem mem_names_of_get? {fs : Fields α} {name : String} {v : α} (h : get? fs name = some v) :
    name ∈ names fs := by
  induction fs with
  | nil => exact absurd h (by simp [get?_nil])
  | cons e rest ih =>
    obtain ⟨n, w⟩ := e
    rw [get?_cons] at h
    split at h
    · next hn => exact List.mem_cons.2 (Or.inl hn.symm)
    · exact List.mem_cons_of_mem _ (ih h)

theorem mem_of_get? {fs : Fields α} {name : String} {v : α} (h : get? fs name = some v) :
    (name, v) ∈ fs := by
  obtain ⟨before, after, hs, _⟩ := List.lookup_eq_some_iff.1 h
  rw [hs]
  exact List.mem_append_right _ List.mem_cons_self

theorem contains_eq_true {fs : Fields α} {name : String} :
    contains fs name = true ↔ name ∈ names fs := by
  rw [contains, Option.isSome_iff_exists]
  exact ⟨fun ⟨_, h⟩ => mem_names_of_get? h, get?_of_mem_names⟩

theorem get?_of_mem {fs : Fields α} (h : Distinct fs) {name : String} {v : α}
    (hm : (name, v) ∈ fs) : get? fs name = some v := by
  induction fs with
  | nil => exact absurd hm List.not_mem_nil
  | cons e rest ih =>
    obtain ⟨n, w⟩ := e
    obtain ⟨hn, hr⟩ := List.nodup_cons.1 h
    rw [get?_cons]
    rcases List.mem_cons.1 hm with he | hm
    · obtain ⟨rfl, rfl⟩ := Prod.mk.inj he
      exact if_pos rfl
    · have hne : n ≠ name := by
        rintro rfl
        exact hn (List.mem_map.2 ⟨_, hm, rfl⟩)
      rw [if_neg hne, ih hr hm]

theorem not_mem_names_of_distinct {fs : Fields α} {name : String} {v : α} {more : Fields α}
    (h : Distinct (fs ++ (name, v) :: more)) : name ∉ names fs := by
  intro hm
  unfold Distinct names at h
  rw [List.map_append] at h
  exact (List.nodup_append.1 h).2.2 name hm name List.mem_cons_self rfl

theorem insertAll_of_distinct {fs entries : Fields α} (h : Distinct (fs ++ entries)) :
    insertAll fs entries = fs ++ entries := by
  induction entries generalizing fs with
  | nil => simp
  | cons e rest ih =>
    have hn : e.1 ∉ names fs := not_mem_names_of_distinct h
    have hs : fs ++ e :: rest = (fs ++ [e]) ++ rest := by simp
    rw [hs] at h ⊢
    have hi : insert fs e.1 e.2 = fs ++ [e] := by
      have ha := alter_of_not_mem hn (fun _ => e.2) []
      simpa [insert, alter] using ha
    rw [insertAll_cons, hi]
    exact ih h

theorem eq_map_names {fs : Fields α} (h : Distinct fs) (value : String → α)
    (hv : ∀ name ∈ names fs, get? fs name = some (value name)) :
    fs = (names fs).map fun name => (name, value name) := by
  induction fs with
  | nil => rfl
  | cons e rest ih =>
    obtain ⟨n, v⟩ := e
    have hd := List.nodup_cons.1 h
    have hn : v = value n := by
      have := hv n List.mem_cons_self
      rw [get?_cons, if_pos rfl] at this
      exact Option.some.inj this
    have hr : rest = (names rest).map fun name => (name, value name) := by
      apply ih hd.2
      intro name hm
      have := hv name (List.mem_cons_of_mem _ hm)
      have hne : n ≠ name := fun h => hd.1 (h ▸ hm)
      rwa [get?_cons, if_neg hne] at this
    calc (n, v) :: rest = (n, value n) :: (names rest).map fun name => (name, value name) := by
          rw [← hr, ← hn]
      _ = _ := rfl

end Fields
end TreeMarkup
