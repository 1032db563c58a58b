import Mathlib.Data.List.Basic
import TreeMarkup.Project.Session

namespace TreeMarkup.Project

namespace Directory

variable {d d' : Directory} {name content : String}

lemma lookup_file (l loc : Location) (c : String) (files : List (Location × String)) :
    ((l, c) :: files).lookup loc = if loc = l then some c else files.lookup loc := by
  rw [List.lookup_cons]
  by_cases h : loc = l
  · simp [h]
  · have hb : (loc == l) = false := beq_false_of_ne h
    simp [hb, h]

lemma lookup_replaceFile (loc other : Location) (content : String) (files : List (Location × String)) :
    (replaceFile loc content files).lookup other =
      if other = loc then some content else files.lookup other := by
  induction files with
  | nil => exact lookup_file loc other content []
  | cons file rest ih =>
    obtain ⟨l, c⟩ := file
    rw [replaceFile]
    split
    · next h =>
      subst h
      rw [lookup_file, lookup_file]
      by_cases ho : other = l <;> simp [ho]
    · next h =>
      rw [lookup_file, lookup_file, ih]
      by_cases ho : other = l
      · have hne : other ≠ loc := fun he => h (ho.symm.trans he)
        rw [if_pos ho, if_pos ho, if_neg hne]
      · rw [if_neg ho, if_neg ho]

lemma isFolder_files (files : List (Location × String)) (loc : Location) :
    { d with files := files }.isFolder loc = d.isFolder loc := rfl

lemma walk_files {loc found : Location} {names : List String} (h : d.walk loc names = .ok found)
    (files : List (Location × String)) : { d with files := files }.walk loc names = .ok found := by
  induction names generalizing loc with
  | nil => exact h
  | cons part rest ih =>
    rw [walk] at h ⊢
    rw [isFolder_files]
    split at h
    · next hf =>
      rw [if_pos hf]
      exact ih h
    · cases h

def Overwrites (d d' : Directory) (name content : String) : Prop :=
  d'.read name = .ok content ∧ ∃ loc, ∀ other,
    d'.files.lookup other = if other = loc then some content else d.files.lookup other

lemma overwrites_of_write (h : d.write name content = .ok d') : Overwrites d d' name content := by
  simp only [write] at h
  split at h
  · cases h
  · next loc hw =>
    split at h
    · cases h
    · next hending =>
      split at h
      · cases h
      · next found hi =>
        obtain rfl := Except.ok.inj h
        have hlook := lookup_replaceFile found
        refine ⟨?_, found, fun other => hlook other content d.files⟩
        have hnone : (parts name).reverse.takeWhile (· == "") = [] := by
          rw [Bool.or_eq_true, not_or] at hending
          simpa using hending.1
        rw [hnone, List.length_nil, List.drop_zero, List.reverse_reverse] at hw
        have hcontent : { d with files := replaceFile found content d.files }.content? loc =
            some content := by
          have hi : { d with files := replaceFile found content d.files }.inside? loc = some found := hi
          rw [content?, hi, Option.bind_some, hlook, if_pos rfl]
        rw [read, walk_files hw]
        simp only [hcontent]

lemma files_makeFolder {names : List String} (h : d.makeFolder names = .ok d') :
    d'.files = d.files := by
  rw [makeFolder] at h
  split at h
  · cases h
  · split at h
    · cases h
    · split at h
      · cases h
      · obtain rfl := Except.ok.inj h
        rfl

lemma files_ensureFolder {names : List String} (h : d.ensureFolder names = .ok d') :
    d'.files = d.files := by
  rw [ensureFolder] at h
  split at h
  · next hm =>
    obtain rfl := Except.ok.inj h
    exact files_makeFolder hm
  · split at h
    · obtain rfl := Except.ok.inj h
      rfl
    · cases h

end Directory

section Run

variable {α β γ : Type} {action : RunM α} {next : α → RunM β} {view : Session → γ}

lemma run_bind (action : RunM α) (next : α → RunM β) (s : Session) :
    (action >>= next).run s = match action.run s with
      | (.ok a, s') => (next a).run s'
      | (.error e, s') => (.error e, s') := by
  change ExceptT.bindCont next (action.run s).1 (action.run s).2 = _
  rcases action.run s with ⟨_ | _, _⟩ <;> rfl

/-- Whatever the action comes to, the view is the same afterwards. -/
def Keeps (view : Session → γ) (action : RunM α) : Prop :=
  ∀ s, view (action.run s).2 = view s

lemma Keeps.bind (ha : Keeps view action) (hn : ∀ a, Keeps view (next a)) :
    Keeps view (action >>= next) := by
  intro s
  have hs := ha s
  rw [run_bind]
  rcases hr : action.run s with ⟨e | a, s'⟩
  · rwa [hr] at hs
  · rw [hr] at hs
    exact (hn a s').trans hs

lemma keeps_pure (a : α) : Keeps view (pure a : RunM α) :=
  fun _ => rfl

lemma keeps_get : Keeps view (get : RunM Session) :=
  fun _ => rfl

lemma keeps_fail (causes : List String) : Keeps view (Session.fail causes : RunM α) :=
  fun _ => rfl

lemma keeps_overflow : Keeps view (Session.overflow : RunM α) :=
  fun _ => rfl

def place (s : Session) : String × Directory :=
  (s.cwd, s.directory)

lemma keeps_print (line : String) : Keeps place (Session.print line) :=
  fun _ => rfl

lemma keeps_printError (line : String) : Keeps place (Session.printError line) :=
  fun _ => rfl

lemma keeps_locate (name : String) : Keeps view (Session.locate name) :=
  fun _ => rfl

lemma keeps_readFile (name : String) : Keeps view (Session.readFile name) :=
  fun _ => rfl

lemma keeps_loadObject (name : String) : Keeps view (Session.loadObject name) := by
  refine (keeps_readFile name).bind fun found => ?_
  cases found with
  | error e => exact keeps_pure _
  | ok text =>
    dsimp only
    split <;> exact keeps_pure _

lemma keeps_forM {f : α → RunM PUnit} (h : ∀ a, Keeps view (f a)) (xs : List α) :
    Keeps view (xs.forM f) := by
  induction xs with
  | nil => exact keeps_pure _
  | cons x xs ih => exact (h x).bind fun _ => ih

def files (s : Session) : List (Location × String) :=
  s.directory.files

lemma keeps_commit {result : Except OsError Directory} {s : Session}
    (h : ∀ d, result = .ok d → d.files = s.directory.files) :
    files ((Session.commit result).run s).2 = files s := by
  cases result with
  | error e => rfl
  | ok d => exact h d rfl

lemma keeps_makeFolders (names : List String) : Keeps files (Session.makeFolders names) := by
  induction names with
  | nil => exact keeps_pure _
  | cons name above ih =>
    refine keeps_get.bind fun s => ?_
    have hrest : Keeps files (get >>= fun s : Session =>
        Session.commit (s.directory.ensureFolder (name :: above).reverse)) :=
      fun s => keeps_commit fun d hd => Directory.files_ensureFolder hd
    split
    · exact ih.bind fun _ => hrest
    · exact hrest

def Ends (action : RunM α) : Prop :=
  ∀ s, (action.run s).1 ≠ .error .overflowed

lemma Ends.bind (ha : Ends action) (hn : ∀ a, Ends (next a)) : Ends (action >>= next) := by
  intro s
  have hs := ha s
  rw [run_bind]
  rcases hr : action.run s with ⟨e | a, s'⟩
  · rw [hr] at hs
    exact fun he => hs (congrArg Except.error (Except.error.inj he))
  · exact hn a s'

lemma ends_commit (result : Except OsError Directory) : Ends (Session.commit result) := by
  cases result <;> exact fun _ => nofun

lemma ends_makeFolders (names : List String) : Ends (Session.makeFolders names) := by
  induction names with
  | nil => exact fun _ => nofun
  | cons name above ih =>
    have hget : Ends (get : RunM Session) := fun _ => nofun
    refine hget.bind fun s => ?_
    split
    · exact ih.bind fun _ => hget.bind fun s => ends_commit _
    · exact hget.bind fun s => ends_commit _

lemma ends_writeFileWithFolders (name content : String) :
    Ends (Session.writeFileWithFolders name content) := by
  have hget : Ends (get : RunM Session) := fun _ => nofun
  exact (ends_makeFolders _).bind fun _ => hget.bind fun s => ends_commit _

def Succeeds (action : RunM α) : Prop :=
  ∀ s, ∃ a, (action.run s).1 = .ok a

lemma Succeeds.bind (ha : Succeeds action) (hn : ∀ a, Succeeds (next a)) :
    Succeeds (action >>= next) := by
  intro s
  obtain ⟨a, h⟩ := ha s
  rw [run_bind]
  rcases hr : action.run s with ⟨e | b, s'⟩
  · rw [hr] at h
    cases h
  · exact hn b s'

lemma run_bind_of_succeeds (hs : Succeeds action) (hk : Keeps view action) (s : Session) :
    ∃ a s', view s' = view s ∧ ∀ next : α → RunM β, (action >>= next).run s = (next a).run s' := by
  obtain ⟨a, ha⟩ := hs s
  refine ⟨a, (action.run s).2, hk s, fun next => ?_⟩
  have hr : action.run s = (.ok a, (action.run s).2) := Prod.ext ha rfl
  rw [run_bind, hr]

lemma Succeeds.ends (h : Succeeds action) : Ends action := by
  intro s he
  obtain ⟨a, ha⟩ := h s
  exact absurd (ha.symm.trans he) (by simp)

lemma succeeds_printError (line : String) : Succeeds (Session.printError line) :=
  fun _ => ⟨_, rfl⟩

lemma succeeds_forM {f : α → RunM PUnit} (h : ∀ a, Succeeds (f a)) (xs : List α) :
    Succeeds (xs.forM f) := by
  induction xs with
  | nil => exact fun _ => ⟨_, rfl⟩
  | cons x xs ih => exact (h x).bind fun _ => ih

lemma writeFileWithFolders_cases (name content : String) (s : Session) :
    (∃ f s', (Session.writeFileWithFolders name content).run s = (.error f, s') ∧ files s' = files s) ∨
      ∃ s', (Session.writeFileWithFolders name content).run s = (.ok (), s') ∧
        Directory.Overwrites s.directory s'.directory name content := by
  have hfolders := keeps_makeFolders (((parts name).filter fun p => !isStill p).reverse.drop 1) s
  rw [Session.writeFileWithFolders, run_bind]
  rcases hr : (Session.makeFolders (((parts name).filter fun p => !isStill p).reverse.drop 1)).run s with
    ⟨f | _, s'⟩
  · rw [hr] at hfolders
    exact Or.inl ⟨f, s', rfl, hfolders⟩
  · rw [hr] at hfolders
    have hwrite : (Session.writeFile name content).run s' =
        (Session.commit (s'.directory.write name content)).run s' := rfl
    dsimp only
    rw [hwrite]
    cases hd : s'.directory.write name content with
    | error e => exact Or.inl ⟨_, s', rfl, hfolders⟩
    | ok d =>
      obtain ⟨hread, loc, hloc⟩ := Directory.overwrites_of_write hd
      have hfiles : s'.directory.files = s.directory.files := hfolders
      rw [hfiles] at hloc
      exact Or.inr ⟨_, rfl, hread, loc, hloc⟩

end Run

end TreeMarkup.Project
