import TreeMarkup.Project.Commands
import TreeMarkup.Proofs.Project.Session

namespace TreeMarkup.Project

namespace Compile

section Frames

lemma keeps_orFail {ε α γ : Type} {view : Session → γ} (causes : ε → List String)
    (result : Except ε α) : Keeps view (orFail causes result) := by
  cases result with
  | error e => exact keeps_fail _
  | ok a => exact keeps_pure a

variable {γ : Type} {view : Session → γ}

lemma keeps_requireObject (context name : String) : Keeps view (requireObject context name) := by
  refine (keeps_loadObject name).bind fun found => ?_
  cases found with
  | error e => exact keeps_fail _
  | ok members => exact keeps_pure _

lemma keeps_loadConfig : Keeps view loadConfig := by
  refine (keeps_locate configName).bind fun name => keeps_get.bind fun s => ?_
  split
  · exact (keeps_readFile name).bind fun found =>
      (keeps_orFail _ found).bind fun text => keeps_orFail _ _
  · exact keeps_pure _

lemma keeps_loadTree (name : String) : Keeps view (loadTree name) :=
  (keeps_readFile name).bind fun found => (keeps_orFail _ found).bind fun _ => keeps_orFail _ _

lemma keeps_loadRegistry (name : String) : Keeps view (loadRegistry name) :=
  (keeps_locate name).bind fun _ => (keeps_requireObject _ _).bind fun _ => keeps_orFail _ _

lemma keeps_loadAliases (asked configured : Option String) :
    Keeps view (loadAliases asked configured) := by
  rw [loadAliases]
  cases asked <|> configured with
  | none => exact keeps_pure _
  | some name =>
    exact (keeps_locate name).bind fun _ => (keeps_requireObject _ _).bind fun _ => keeps_pure _

lemma keeps_prepare (tree registry : String) (request : CompileRequest) :
    Keeps view (prepare tree registry request) := by
  refine keeps_loadConfig.bind fun config => (keeps_locate tree).bind fun name =>
    (keeps_loadTree name).bind fun _ => (keeps_loadRegistry registry).bind fun _ =>
    (keeps_loadAliases _ _).bind fun _ => (keeps_orFail _ _).bind fun _ => ?_
  split
  · exact keeps_overflow
  · exact keeps_pure _

lemma keeps_printLog (verbose : Bool) (log : Log) : Keeps place (printLog verbose log) :=
  keeps_forM keeps_printError _

lemma run_locate (out : Option String) (s : Session) :
    (out.mapM Session.locate).run s = (.ok (out.map (join s.cwd)), s) := by
  cases out <;> rfl

end Frames

section Delivery

inductive Renders (c : Markup.Compilation) : String → String → Prop
  | text : Renders c "text" c.markup
  | json : Renders c "json" (document c).prettyText

lemma keeps_report (c : Markup.Compilation) : Keeps place (report c) := by
  refine (keeps_forM (fun d => keeps_printError _) c.diagnostics).bind fun _ => ?_
  dsimp only
  split
  · exact keeps_printError _
  · exact keeps_pure _

lemma succeeds_report (c : Markup.Compilation) : Succeeds (report c) := by
  refine (succeeds_forM (fun d => succeeds_printError _) c.diagnostics).bind fun _ s => ?_
  dsimp only
  split <;> exact ⟨_, rfl⟩

lemma ends_print (line : String) : Ends (Session.print line) :=
  fun _ => nofun

lemma ends_fail {α : Type} (causes : List String) : Ends (Session.fail causes : RunM α) :=
  fun _ => nofun

lemma writeText_none (c : Markup.Compilation) :
    writeText c none = (Session.print c.markup >>= fun _ => report c) := rfl

lemma writeText_some (c : Markup.Compilation) (name : String) :
    writeText c (some name) = (Session.writeFileWithFolders name c.markup >>= fun _ =>
      Session.print ("  ✓ " ++ name) >>= fun _ => report c) := rfl

variable {c : Markup.Compilation} {format text : String}

lemma keeps_deliver_none (c : Markup.Compilation) (format : String) :
    Keeps place (deliver c format none) := by
  unfold deliver
  split
  · rw [writeText_none]
    exact (keeps_print _).bind fun _ => keeps_report c
  · exact keeps_print _
  · exact keeps_fail _

lemma ends_deliver (c : Markup.Compilation) (format : String) (out : Option String) :
    Ends (deliver c format out) := by
  unfold deliver
  split
  · cases out with
    | none =>
      rw [writeText_none]
      exact (ends_print _).bind fun _ => (succeeds_report c).ends
    | some name =>
      rw [writeText_some]
      exact (ends_writeFileWithFolders _ _).bind fun _ =>
        (ends_print _).bind fun _ => (succeeds_report c).ends
  · cases out with
    | none => exact ends_print _
    | some name => exact ends_writeFileWithFolders _ _
  · exact ends_fail _

lemma keeps_deliver_unknown (h : ∀ text, ¬Renders c format text) (out : Option String) :
    Keeps place (deliver c format out) := by
  unfold deliver
  split
  · exact absurd .text (h _)
  · exact absurd .json (h _)
  · exact keeps_fail _

lemma deliver_cases (h : Renders c format text) (name : String) (s : Session) :
    (∃ f s', (deliver c format (some name)).run s = (.error f, s') ∧ files s' = files s) ∨
      ∃ s', (deliver c format (some name)).run s = (.ok (), s') ∧
        Directory.Overwrites s.directory s'.directory name text := by
  cases h with
  | json => exact writeFileWithFolders_cases name _ s
  | text =>
    have hsucceeds : Succeeds (Session.print ("  ✓ " ++ name) >>= fun _ => report c) :=
      Succeeds.bind (fun s => ⟨_, rfl⟩) fun _ => succeeds_report c
    have hkeeps : Keeps place (Session.print ("  ✓ " ++ name) >>= fun _ => report c) :=
      (keeps_print _).bind fun _ => keeps_report c
    have hd : deliver c "text" (some name) = (Session.writeFileWithFolders name c.markup >>= fun _ =>
        Session.print ("  ✓ " ++ name) >>= fun _ => report c) := writeText_some c name
    rw [hd, run_bind]
    rcases writeFileWithFolders_cases name c.markup s with ⟨f, s', hr, hf⟩ | ⟨s', hr, ho⟩
    · exact Or.inl ⟨f, s', by rw [hr], hf⟩
    · obtain ⟨_, ha⟩ := hsucceeds s'
      have hplace := congrArg Prod.snd (hkeeps s')
      rw [hr]
      refine Or.inr ⟨_, Prod.ext ha rfl, ?_⟩
      have hdirectory : ((Session.print ("  ✓ " ++ name) >>= fun _ => report c).run s').2.directory =
          s'.directory := hplace
      rwa [hdirectory]

end Delivery

section Failing

variable {s : Session} {verbose : Bool} {tree registry : String} {request : CompileRequest}
  {f : Stop} {c : Markup.Compilation}

/-- Nothing is compiled, and yet there is a text to write to a file of that name. -/
def Spills (s : Session) (tree registry : String) (request : CompileRequest)
    (name text : String) : Prop :=
  request.out = some name ∧ ∃ c, ((prepare tree registry request).run s).1 = .ok c ∧
    c.markup = "" ∧ Renders c (request.format.getD "text") text

lemma run_of_unprepared (verbose : Bool) (h : ((prepare tree registry request).run s).1 = .error f) :
    ((run verbose tree registry request).run s).2 = ((prepare tree registry request).run s).2 := by
  rw [run, run_bind]
  rcases hp : (prepare tree registry request).run s with ⟨e | c, s'⟩
  · rfl
  · rw [hp] at h
    cases h

lemma run_of_prepared (verbose : Bool) (h : ((prepare tree registry request).run s).1 = .ok c) :
    ∃ s', place s' = place s ∧ (run verbose tree registry request).run s =
      (deliver c (request.format.getD "text") (request.out.map (join s.cwd)) >>= fun _ =>
        if c.markup.isEmpty then Session.fail ["Nothing was compiled"] else pure ()).run s' := by
  have hplace : place ((prepare tree registry request).run s).2 = place s :=
    keeps_prepare tree registry request s
  rw [run, run_bind]
  rcases hp : (prepare tree registry request).run s with ⟨e | c', s₁⟩
  · rw [hp] at h
    cases h
  · rw [hp] at h hplace
    obtain rfl := Except.ok.inj h
    have hlog : Succeeds (printLog verbose c'.log) := succeeds_forM succeeds_printError _
    obtain ⟨_, s₂, hplace', hnext⟩ := run_bind_of_succeeds hlog (keeps_printLog verbose c'.log) s₁
    have hcwd : s₂.cwd = s.cwd := congrArg Prod.fst (hplace'.trans hplace)
    refine ⟨s₂, hplace'.trans hplace, ?_⟩
    dsimp only
    rw [hnext, run_bind, run_locate, hcwd]

lemma keeps_conclude (c : Markup.Compilation) : Keeps place
    (if c.markup.isEmpty then Session.fail ["Nothing was compiled"] else pure () : RunM Unit) := by
  split
  · exact keeps_fail _
  · exact keeps_pure _

lemma files_of_place {s s' : Session} (h : place s' = place s) : files s' = files s :=
  congrArg (fun p => p.2.files) h

lemma files_of_failed (hrun : ((run verbose tree registry request).run s).1 = .error f)
    (hno : ∀ name text, ¬Spills s tree registry request name text) :
    files ((run verbose tree registry request).run s).2 = files s := by
  rcases hp : ((prepare tree registry request).run s).1 with e | c
  · rw [run_of_unprepared verbose hp]
    exact keeps_prepare tree registry request s
  · obtain ⟨s', hplace, hr⟩ := run_of_prepared verbose hp
    rw [hr] at hrun ⊢
    -- The directory is another only if delivering wrote a file, and after that only nothing at all
    -- being compiled is a failure.
    rw [← files_of_place hplace]
    by_cases hquiet : Keeps place
        (deliver c (request.format.getD "text") (request.out.map (join s.cwd)))
    · exact files_of_place (hquiet.bind (fun _ => keeps_conclude c) s')
    · obtain ⟨name, hout⟩ : ∃ name, request.out = some name := by
        refine Option.ne_none_iff_exists'.mp fun hnone => hquiet ?_
        rw [hnone]
        exact keeps_deliver_none c _
      obtain ⟨text, ht⟩ : ∃ text, Renders c (request.format.getD "text") text := by
        by_contra hnone
        exact hquiet (keeps_deliver_unknown (not_exists.mp hnone) _)
      rw [hout, Option.map_some] at hrun ⊢
      rcases deliver_cases ht (join s.cwd name) s' with ⟨f', t, hd, hf⟩ | ⟨t, hd, _⟩
      · rw [run_bind, hd]
        exact hf
      · rw [run_bind, hd] at hrun
        dsimp only at hrun
        split at hrun
        · next he => exact absurd ⟨hout, c, hp, String.isEmpty_iff.mp he, ht⟩ (hno name text)
        · cases hrun

lemma ends_conclude (c : Markup.Compilation) : Ends
    (if c.markup.isEmpty then Session.fail ["Nothing was compiled"] else pure () : RunM Unit) := by
  split
  · exact ends_fail _
  · exact fun _ => nofun

lemma run_eq_overflowed (verbose : Bool) :
    ((run verbose tree registry request).run s).1 = .error .overflowed ↔
      ((prepare tree registry request).run s).1 = .error .overflowed := by
  rcases hp : ((prepare tree registry request).run s).1 with e | c
  · rw [run, run_bind]
    rcases hr : (prepare tree registry request).run s with ⟨e' | c', s'⟩
    · rw [hr] at hp
      obtain rfl := Except.error.inj hp
      simp
    · rw [hr] at hp
      cases hp
  · obtain ⟨s', _, hr⟩ := run_of_prepared verbose hp
    rw [hr]
    have hdeliver := ends_deliver c (request.format.getD "text") (request.out.map (join s.cwd))
    exact iff_of_false ((hdeliver.bind fun _ => ends_conclude c) s') (by simp)

lemma files_of_spilled (verbose : Bool) {name text : String}
    (h : Spills s tree registry request name text) :
    (∃ causes, ((run verbose tree registry request).run s).1 = .error (.failed causes)) ∧
    (files ((run verbose tree registry request).run s).2 = files s ∨
      Directory.Overwrites s.directory ((run verbose tree registry request).run s).2.directory
        (join s.cwd name) text) := by
  obtain ⟨hout, c, hp, he, ht⟩ := h
  have hends : ((run verbose tree registry request).run s).1 ≠ .error .overflowed := by
    rw [Ne, run_eq_overflowed, hp]
    simp
  obtain ⟨s', hplace, hr⟩ := run_of_prepared verbose hp
  have hdirectory : s'.directory = s.directory := congrArg Prod.snd hplace
  rw [hr, hout, Option.map_some, run_bind] at hends ⊢
  rcases deliver_cases ht (join s.cwd name) s' with ⟨f, t, hd, hf⟩ | ⟨t, hd, ho⟩
  · rw [hd] at hends ⊢
    cases f with
    | failed causes => exact ⟨⟨causes, rfl⟩, Or.inl (hf.trans (files_of_place hplace))⟩
    | overflowed => exact absurd rfl hends
  · rw [hd, he]
    rw [hdirectory] at ho
    exact ⟨⟨_, rfl⟩, Or.inr ho⟩

end Failing

end Compile

open Compile

variable {args : List String} {verbose : Bool}
  {tree registry : String} {request : CompileRequest}

lemma run_compile (cwd : String) (directory : Directory)
    (h : Invocation.read args = .ok ⟨verbose, .compile tree registry request⟩) :
    (run cwd directory args).directory =
        ((Compile.run verbose tree registry request).run (Session.start cwd directory)).2.directory ∧
      ((run cwd directory args).code = 1 ↔ ∃ causes,
        ((Compile.run verbose tree registry request).run (Session.start cwd directory)).1 =
          .error (.failed causes)) ∧
      ((run cwd directory args).code = abortCode ↔
        ((Compile.run verbose tree registry request).run (Session.start cwd directory)).1 =
          .error .overflowed) := by
  simp only [run, h, Command.run]
  rcases (Compile.run verbose tree registry request).run (Session.start cwd directory) with
    ⟨(causes | _) | _, s⟩
  · simp [abortCode]
  · simp [abortCode]
  · simp [abortCode]

/-- A run that fails leaves all files as they are, unless nothing was compiled and the text of that has
been written to the file that was asked for. -/
theorem failed_compile_files (cwd : String) (directory : Directory)
    (hargs : Invocation.read args = .ok ⟨verbose, .compile tree registry request⟩) :
    ((run cwd directory args).code = 1 →
      (∀ name text, ¬Spills (Session.start cwd directory) tree registry request name text) →
      (run cwd directory args).directory.files = directory.files) ∧
    ∀ name text, Spills (Session.start cwd directory) tree registry request name text →
      (run cwd directory args).code = 1 ∧
        ((run cwd directory args).directory.files = directory.files ∨
          Directory.Overwrites directory (run cwd directory args).directory (join cwd name) text) := by
  obtain ⟨hdirectory, hcode, _⟩ := run_compile cwd directory hargs
  rw [hdirectory, hcode]
  refine ⟨?_, fun name text hs => files_of_spilled verbose hs⟩
  rintro ⟨f, hf⟩ hno
  exact files_of_failed hf hno

/-- A run is aborted exactly if the stack is full before there is anything to write, and leaves all files
as they are. -/
theorem aborted_compile_files (cwd : String) (directory : Directory)
    (hargs : Invocation.read args = .ok ⟨verbose, .compile tree registry request⟩) :
    ((run cwd directory args).code = abortCode ↔
      ((prepare tree registry request).run (Session.start cwd directory)).1 = .error .overflowed) ∧
    ((run cwd directory args).code = abortCode →
      (run cwd directory args).directory.files = directory.files) := by
  obtain ⟨hdirectory, _, hcode⟩ := run_compile cwd directory hargs
  rw [hdirectory, hcode, run_eq_overflowed]
  refine ⟨Iff.rfl, fun hp => ?_⟩
  have hfiles : files _ = files _ := keeps_prepare tree registry request (Session.start cwd directory)
  rw [run_of_unprepared verbose hp]
  exact hfiles

section Ghost

def ghostDirectory : Directory :=
  .ofFiles "/p" [("tree.json", "\x7b\"_\":\"Ghost\"\x7d"), ("registry.json", "\x7b\"Panel\":true\x7d"),
    ("out.txt", "kept")]

def ghostRequest (format : Option String) : CompileRequest :=
  ⟨none, some "tree.json", some "registry.json", none, [], format, some "out.txt", none⟩

def ghostArgs (more : List String) : List String :=
  ["compile", "tree.json", "--registry", "registry.json", "--out", "out.txt"] ++ more

lemma read_ghost : Invocation.read (ghostArgs []) =
    .ok ⟨false, .compile "tree.json" "registry.json" (ghostRequest none)⟩ := by
  decide +kernel

lemma read_ghost_yaml : Invocation.read (ghostArgs ["--format", "yaml"]) =
    .ok ⟨false, .compile "tree.json" "registry.json" (ghostRequest (some "yaml"))⟩ := by
  decide +kernel

lemma run_ghost : (run "/p" ghostDirectory (ghostArgs [])).code = 1 ∧
    (run "/p" ghostDirectory (ghostArgs [])).directory.files ≠ ghostDirectory.files := by
  decide +kernel

lemma code_ghost_yaml : (run "/p" ghostDirectory (ghostArgs ["--format", "yaml"])).code = 1 := by
  decide +kernel

lemma prepare_ghost : (((prepare "tree.json" "registry.json" (ghostRequest none)).run
    (Session.start "/p" ghostDirectory)).1.toOption.map (·.markup)) = some "" := by
  decide +kernel

lemma spills_ghost : Spills (Session.start "/p" ghostDirectory) "tree.json" "registry.json"
    (ghostRequest none) "out.txt" "" := by
  obtain ⟨c, hc, hm⟩ := Option.map_eq_some_iff.mp prepare_ghost
  have hr : Renders c "text" c.markup := .text
  rw [hm] at hr
  refine ⟨rfl, c, ?_, hm, hr⟩
  rcases hp : ((prepare "tree.json" "registry.json" (ghostRequest none)).run
    (Session.start "/p" ghostDirectory)).1 with e | c'
  · rw [hp] at hc
    cases hc
  · rw [hp] at hc
    exact congrArg Except.ok (Option.some.inj hc)

lemma not_spills_yaml (name text : String) : ¬Spills (Session.start "/p" ghostDirectory) "tree.json"
    "registry.json" (ghostRequest (some "yaml")) name text := by
  rintro ⟨_, c, _, _, hr⟩
  generalize hf : (ghostRequest (some "yaml")).format.getD "text" = format at hr
  cases hr with
  | text => exact absurd hf (by decide)
  | json => exact absurd hf (by decide)

end Ghost

theorem failed_compile_files_ghost :
    Invocation.read (ghostArgs []) =
      .ok ⟨false, .compile "tree.json" "registry.json" (ghostRequest none)⟩ ∧
    Directory.Overwrites ghostDirectory (run "/p" ghostDirectory (ghostArgs [])).directory
      (join "/p" "out.txt") "" ∧
    Invocation.read (ghostArgs ["--format", "yaml"]) =
      .ok ⟨false, .compile "tree.json" "registry.json" (ghostRequest (some "yaml"))⟩ ∧
    (run "/p" ghostDirectory (ghostArgs ["--format", "yaml"])).code = 1 ∧
    (run "/p" ghostDirectory (ghostArgs ["--format", "yaml"])).directory.files =
      ghostDirectory.files := by
  have hspilled := (failed_compile_files "/p" ghostDirectory read_ghost).2 "out.txt" "" spills_ghost
  have hyaml := (failed_compile_files "/p" ghostDirectory read_ghost_yaml).1 code_ghost_yaml
    not_spills_yaml
  exact ⟨read_ghost, hspilled.2.resolve_left run_ghost.2, read_ghost_yaml, code_ghost_yaml, hyaml⟩

theorem not_failed_compile_files_ghost : ¬∀ (cwd : String) (directory : Directory) (args : List String)
    (verbose : Bool) (tree registry : String) (request : CompileRequest),
    Invocation.read args = .ok ⟨verbose, .compile tree registry request⟩ →
    (run cwd directory args).code = 1 → (run cwd directory args).directory.files = directory.files := by
  intro h
  exact run_ghost.2 (h "/p" ghostDirectory (ghostArgs []) false "tree.json" "registry.json"
    (ghostRequest none) read_ghost run_ghost.1)

end TreeMarkup.Project
