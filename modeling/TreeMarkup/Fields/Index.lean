import TreeMarkup.Fields

namespace TreeMarkup.Fields

variable {α : Type}

inductive Index (α : Type) where
  | leaf
  | branch (first : Char) (here : Option α) (down next : Index α)

namespace Index

def find : Index α → List Char → Option α
  | .leaf, _ => none
  | .branch _ _ _ _, [] => none
  | .branch c here down next, d :: rest =>
    if c = d then (if rest.isEmpty then here else find down rest) else find next (d :: rest)

def single (value : Option α) : List Char → Index α
  | [] => .leaf
  | c :: rest => .branch c (if rest.isEmpty then value else none) (single value rest) .leaf

def set (value : Option α) : Index α → List Char → Index α
  | .leaf, cs => single value cs
  | .branch c here down next, [] => .branch c here down next
  | .branch c here down next, d :: rest =>
    if c = d then
      if rest.isEmpty then .branch c value down next else .branch c here (set value down rest) next
    else .branch c here down (set value next (d :: rest))

def key (name : String) : List Char :=
  ' ' :: name.toList

theorem find_nil (index : Index α) : find index [] = none := by
  cases index <;> rfl

theorem find_single (value : Option α) (cs ds : List Char) (h : cs ≠ []) :
    find (single value cs) ds = if cs = ds then value else none := by
  induction cs generalizing ds with
  | nil => exact absurd rfl h
  | cons c cs ih =>
    cases ds with
    | nil => simp [find_nil]
    | cons d ds =>
      by_cases hc : c = d
      · subst hc
        cases cs with
        | nil => cases ds <;> simp [single, find]
        | cons c' cs =>
          have hi := ih ds (by simp)
          have hs : single value (c :: c' :: cs) = .branch c none (single value (c' :: cs)) .leaf := rfl
          rw [hs]
          cases ds with
          | nil => simp [find]
          | cons d ds => simp [find, hi]
      · simp [single, find, hc]

theorem find_set (value : Option α) (index : Index α) (cs ds : List Char) (h : cs ≠ []) :
    find (set value index cs) ds = if cs = ds then value else find index ds := by
  induction index generalizing cs ds with
  | leaf => simp [set, find_single value cs ds h, find]
  | branch b here down next ihd ihn =>
    cases cs with
    | nil => exact absurd rfl h
    | cons c cs =>
      cases ds with
      | nil => simp [find_nil]
      | cons d ds =>
        by_cases hb : b = c
        · subst hb
          cases cs with
          | nil =>
            by_cases hd : b = d <;> cases ds <;> simp [set, find, hd]
          | cons c' cs =>
            have hi := ihd (c' :: cs) ds (by simp)
            by_cases hd : b = d
            · subst hd
              cases ds <;> simp_all [set, find]
            · simp [set, find, hd]
        · by_cases hd : b = d
          · subst hd
            simp [set, find, hb, Ne.symm hb]
          · simp [set, find, hb, hd, ihn (c :: cs) (d :: ds) (by simp)]

theorem key_inj {m n : String} : key m = key n ↔ m = n := by
  simp [key, String.toList_inj]

theorem key_ne_nil (name : String) : key name ≠ [] := by
  simp [key]

def get? (index : Index α) (name : String) : Option α :=
  index.find (key name)

theorem get?_set (value : Option α) (index : Index α) (m n : String) :
    get? (index.set value (key m)) n = if m = n then value else get? index n := by
  simp only [get?, find_set value index _ _ (key_ne_nil m), key_inj]

end Index

def firsts : Fields α → Index α → Array (String × α) → Array (String × α)
  | [], _, done => done
  | (name, _) :: rest, index, done =>
    match index.find (Index.key name) with
    | some value => firsts rest (index.set none (Index.key name)) (done.push (name, value))
    | none => firsts rest index done

/-- The result of writing the named values in turn: each name at its first place with its last
value. -/
def ofList (entries : List (String × α)) : Fields α :=
  let last := entries.foldl (fun index e => index.set (some e.2) (Index.key e.1)) Index.leaf
  (firsts entries last #[]).toList

def firstNames (seen : List String) : List (String × α) → List String
  | [] => []
  | (name, _) :: rest =>
    if name ∈ seen then firstNames seen rest else name :: firstNames (seen ++ [name]) rest

theorem names_insertAll (fs : Fields α) (entries : List (String × α)) :
    names (insertAll fs entries)
      = names fs ++ firstNames (names fs) entries := by
  induction entries generalizing fs with
  | nil => simp [firstNames]
  | cons e rest ih =>
    obtain ⟨name, value⟩ := e
    rw [insertAll_cons, ih, names_insert]
    by_cases h : name ∈ names fs <;> simp [firstNames, h]

theorem firstNames_eq_eraseDups (seen : List String) (entries : List (String × α)) :
    firstNames seen entries = ((entries.map Prod.fst).filter fun n => n ∉ seen).eraseDups := by
  induction entries generalizing seen with
  | nil => rfl
  | cons e rest ih =>
    obtain ⟨name, value⟩ := e
    by_cases h : name ∈ seen
    · simp [firstNames, h, ih]
    · have hf : ((rest.map Prod.fst).filter fun n => n ∉ seen ++ [name]) =
          ((rest.map Prod.fst).filter fun n => n ∉ seen).filter fun n => !n == name := by
        rw [List.filter_filter]
        apply List.filter_congr
        intro n _
        by_cases hn : n = name <;> simp [hn]
      rw [firstNames, if_neg h, ih, hf, List.map_cons, List.filter_cons_of_pos (by simpa using h),
        List.eraseDups_cons]

theorem mem_firstNames (seen : List String) (entries : List (String × α)) {name : String}
    (h : name ∈ entries.map Prod.fst) : name ∈ seen ++ firstNames seen entries := by
  induction entries generalizing seen with
  | nil => exact absurd h List.not_mem_nil
  | cons e rest ih =>
    obtain ⟨n, v⟩ := e
    by_cases hn : n ∈ seen
    · simp only [firstNames, hn, if_true]
      rcases List.mem_cons.1 h with rfl | h
      · exact List.mem_append_left _ hn
      · exact ih seen h
    · simp only [firstNames, hn, if_false]
      rcases List.mem_cons.1 h with rfl | h
      · simp
      · simpa using ih (seen ++ [n]) h

theorem firstNames_subset (seen : List String) (entries : List (String × α)) (name : String)
    (h : name ∈ firstNames seen entries) : name ∈ entries.map Prod.fst := by
  induction entries generalizing seen with
  | nil => exact h
  | cons e rest ih =>
    rw [firstNames] at h
    split at h
    · exact List.mem_cons_of_mem _ (ih seen h)
    · rcases List.mem_cons.1 h with rfl | h
      · exact List.mem_cons_self
      · exact List.mem_cons_of_mem _ (ih _ h)

theorem mem_names_insertAll (fs : Fields α) (entries : List (String × α)) {name : String}
    (h : name ∈ entries.map Prod.fst) :
    name ∈ names (insertAll fs entries) := by
  rw [names_insertAll]
  exact mem_firstNames _ _ h

theorem distinct_insertAll {fs : Fields α} (h : Distinct fs) (entries : List (String × α)) :
    Distinct (insertAll fs entries) := by
  induction entries generalizing fs with
  | nil => exact h
  | cons e rest ih => exact ih (distinct_insert h e.1 e.2)

theorem get?_last (fs : Fields α) (index : Index α) (entries : List (String × α))
    (h : ∀ name, index.get? name = get? fs name) (name : String) :
    (entries.foldl (fun index e => index.set (some e.2) (Index.key e.1)) index).get? name
      = get? (insertAll fs entries) name := by
  induction entries generalizing fs index with
  | nil => exact h name
  | cons e rest ih =>
    apply ih
    intro n
    rw [Index.get?_set, get?_insert, h]

theorem firsts_eq (entries : List (String × α)) (seen : List String) (value : String → α)
    (index : Index α) (done : Array (String × α))
    (hs : ∀ name ∈ seen, index.get? name = none)
    (hv : ∀ e ∈ entries, e.1 ∉ seen → index.get? e.1 = some (value e.1)) :
    (firsts entries index done).toList
      = done.toList ++ (firstNames seen entries).map fun name => (name, value name) := by
  induction entries generalizing seen index done with
  | nil => simp [firsts, firstNames]
  | cons e rest ih =>
    obtain ⟨name, first⟩ := e
    by_cases hn : name ∈ seen
    · have hf : index.find (Index.key name) = none := hs name hn
      rw [firsts, hf]
      simp only [firstNames, hn, if_true]
      exact ih seen index done hs fun e he => hv e (List.mem_cons_of_mem _ he)
    · have hf : index.find (Index.key name) = some (value name) :=
        hv (name, first) List.mem_cons_self hn
      rw [firsts, hf]
      simp only [firstNames, hn, if_false]
      rw [ih (seen ++ [name])]
      · simp
      · intro m hm
        rw [Index.get?_set]
        split
        · rfl
        · next hne =>
          rcases List.mem_append.1 hm with hm | hm
          · exact hs m hm
          · exact absurd (List.mem_singleton.1 hm).symm hne
      · intro e he hm
        have hne : name ≠ e.1 := fun h => hm (by simp [h])
        rw [Index.get?_set, if_neg hne]
        exact hv e (List.mem_cons_of_mem _ he) fun h => hm (List.mem_append_left _ h)

theorem ofList_eq_insertAll (entries : List (String × α)) :
    ofList entries = insertAll [] entries := by
  cases entries with
  | nil => rfl
  | cons e rest =>
    generalize hF : insertAll [] (e :: rest) = F
    have hnames : names F = firstNames [] (e :: rest) := by
      rw [← hF, names_insertAll]
      rfl
    have hdistinct : Distinct F := by
      rw [← hF]
      exact distinct_insertAll distinct_nil (e :: rest)
    have hlast := get?_last [] Index.leaf (e :: rest) (fun _ => rfl)
    rw [hF] at hlast
    have hmem (name : String) (h : name ∈ (e :: rest).map Prod.fst) :
        get? F name = some ((get? F name).getD e.2) := by
      obtain ⟨v, hv⟩ := get?_of_mem_names (hF ▸ mem_names_insertAll [] (e :: rest) h)
      simp [hv]
    rw [ofList, firsts_eq (e :: rest) [] (fun name => (get? F name).getD e.2) _ #[] (by simp)]
    · rw [← hnames]
      exact (eq_map_names hdistinct _ fun name h =>
        hmem name (firstNames_subset [] _ name (hnames ▸ h))).symm
    · intro d hd _
      rw [hlast]
      exact hmem d.1 (List.mem_map_of_mem hd)

theorem names_ofList (entries : List (String × α)) :
    names (ofList entries) = (entries.map Prod.fst).eraseDups := by
  rw [ofList_eq_insertAll, names_insertAll, firstNames_eq_eraseDups, List.filter_eq_self.mpr]
  · rfl
  · intro n _
    simp [names]

theorem get?_ofList (entries : List (String × α)) (name : String) :
    get? (ofList entries) name = get? entries.reverse name := by
  rw [ofList_eq_insertAll, get?_insertAll, get?_nil, Option.or_none]

theorem get?_ofList_eq_some {entries : List (String × α)} {name : String} {value : α} :
    get? (ofList entries) name = some value ↔
      ∃ before after, entries = before ++ (name, value) :: after ∧ ∀ e ∈ after, e.1 ≠ name := by
  rw [get?_ofList, get?, List.lookup_eq_some_iff]
  constructor
  · rintro ⟨after, before, hsplit, hafter⟩
    refine ⟨before.reverse, after.reverse, ?_, ?_⟩
    · rw [← List.reverse_reverse entries, hsplit]
      simp
    · intro e he heq
      have hne := hafter e (List.mem_reverse.1 he)
      simp [heq] at hne
  · rintro ⟨before, after, rfl, hafter⟩
    refine ⟨after.reverse, before.reverse, by simp, ?_⟩
    intro e he
    simpa using Ne.symm (hafter e (List.mem_reverse.1 he))

end TreeMarkup.Fields
