import Mathlib.Data.List.Forall2
import TreeMarkup.Proofs.Markup.Unfolding

namespace TreeMarkup.Markup

inductive Request where
  | serialize (a : Attribute) (level : Nat) (path : Path)
  | compile (node : Node) (level : Nat) (path : Path)
  | indent (level : Nat)
  | report (d : Diagnostic)

def Request.perform (target : Target) : Request → CompileM String
  | .serialize a level path => serializeAttribute target a level path
  | .compile node level path => compileNode target node level path
  | .indent level => return target.indentation level
  | .report d => do
    Markup.report d
    return ""

def performAll (target : Target) : List Request → CompileM (List String)
  | [] => return []
  | request :: rest => do
    let output ← request.perform target
    let outputs ← performAll target rest
    return output :: outputs

def Context.append (c d : Context) : Context :=
  ⟨c.diagnostics ++ d.diagnostics, c.log ++ d.log⟩

/-- Run on any context, the request gives what it gives on an empty one and appends what it tells there. -/
def Isolated {α : Type} (m : CompileM α) : Prop :=
  ∀ c, m.run c = (m.run Context.empty).map fun result => (result.1, c.append result.2)

section Isolated

variable {α : Type} {m : CompileM α}

lemma append_extend (c : Context) (log : Log) :
    c.append (Context.empty.extend log) = c.extend log := by
  simp [Context.append, Context.extend, Context.empty, ← Array.toList_inj]

lemma append_empty (c : Context) : c.append Context.empty = c := by
  simp [Context.append, Context.empty]

lemma isolated_of_effect (effect : Option (α × Log))
    (h : ∀ c, m.run c = effect.map fun result => (result.1, c.extend result.2)) : Isolated m := by
  intro c
  rw [h c, h Context.empty, Option.map_map]
  simp only [Function.comp_def, append_extend]

lemma isolated_pure (x : α) : Isolated (pure x : CompileM α) := by
  intro c
  simp [append_empty]

lemma isolated_compileNode (target : Target) (node : Node) (level : Nat) (path : Path) :
    Isolated (compileNode target node level path) := by
  apply isolated_of_effect ((unfold target node).map fun u =>
    (u.markup target.options.indent level, u.log level path))
  intro c
  rw [compileNode_agrees, Option.map_map]
  rfl

lemma isolated_serializeAttribute (target : Target) (a : Attribute) (level : Nat) (path : Path) :
    Isolated (serializeAttribute target a level path) := by
  apply isolated_of_effect ((partOf target (unfold target) a.2).map fun part =>
    (Unfolding.partText target.options.indent level a.1 part, Unfolding.partLog level path a.1 part))
  intro c
  rw [serializeAttribute, attributeText_run (compileNode_agrees target), Option.map_map]
  rfl

lemma isolated_report (d : Diagnostic) : Isolated (do report d; return "") := by
  apply isolated_of_effect (some ("", [.reported d]))
  intro c
  simp

lemma isolated_perform (target : Target) (request : Request) : Isolated (request.perform target) := by
  cases request with
  | serialize a level path => exact isolated_serializeAttribute target a level path
  | compile node level path => exact isolated_compileNode target node level path
  | indent level => exact isolated_pure (target.indentation level)
  | report d => exact isolated_report d

end Isolated

section Runs

variable {target : Target}

lemma performAll_cons (request : Request) (rest : List Request) (c : Context) :
    (performAll target (request :: rest)).run c =
      ((request.perform target).run Context.empty).bind fun result =>
        ((performAll target rest).run (c.append result.2)).map fun results =>
          (result.1 :: results.1, results.2) := by
  have hrequest := isolated_perform target request c
  cases hr : (request.perform target).run Context.empty with
  | none => simp [performAll, hrequest, hr]
  | some result =>
    cases hs : (performAll target rest).run (c.append result.2) <;> simp [performAll, hrequest, hr, hs]

lemma performAll_eq_some {requests : List Request} {c after : Context} {outputs : List String} :
    (performAll target requests).run c = some (outputs, after) ↔ ∃ alone : List (String × Context),
      List.Forall₂ (fun request result => (request.perform target).run Context.empty = some result)
        requests alone ∧
      outputs = alone.map Prod.fst ∧ after = (alone.map Prod.snd).foldl Context.append c := by
  induction requests generalizing c outputs with
  | nil =>
    constructor
    · intro h
      obtain ⟨rfl, rfl⟩ := Prod.mk.inj (Option.some.inj h)
      exact ⟨[], .nil, rfl, rfl⟩
    · rintro ⟨_, ⟨⟩, rfl, rfl⟩
      rfl
  | cons request rest ih =>
    rw [performAll_cons, Option.bind_eq_some_iff]
    constructor
    · rintro ⟨result, hr, hs⟩
      obtain ⟨⟨more, last⟩, hm, he⟩ := Option.map_eq_some_iff.mp hs
      obtain ⟨rfl, rfl⟩ := Prod.mk.inj he
      obtain ⟨alone, hall, rfl, rfl⟩ := ih.mp hm
      exact ⟨result :: alone, .cons hr hall, rfl, rfl⟩
    · rintro ⟨_, hall, rfl, rfl⟩
      cases hall with
      | cons hr hall => exact ⟨_, hr, Option.map_eq_some_iff.mpr ⟨_, ih.mpr ⟨_, hall, rfl, rfl⟩, rfl⟩⟩

lemma foldl_append_view {β : Type} {view : Context → List β}
    (hv : ∀ c d : Context, view (c.append d) = view c ++ view d) (contexts : List Context) (c : Context) :
    view (contexts.foldl Context.append c) = view c ++ contexts.flatMap view := by
  induction contexts generalizing c with
  | nil => simp
  | cons d rest ih => rw [List.foldl_cons, ih, hv, List.flatMap_cons, List.append_assoc]

lemma diagnostics_foldl (contexts : List Context) (c : Context) :
    (contexts.foldl Context.append c).diagnostics.toList =
      c.diagnostics.toList ++ contexts.flatMap fun d => d.diagnostics.toList :=
  @foldl_append_view _ (fun d => d.diagnostics.toList) (fun _ _ => Array.toList_append) contexts c

lemma log_foldl (contexts : List Context) (c : Context) :
    (contexts.foldl Context.append c).log.toList =
      c.log.toList ++ contexts.flatMap fun d => d.log.toList :=
  @foldl_append_view _ (fun d => d.log.toList) (fun _ _ => Array.toList_append) contexts c

lemma eq_foldl_append {alone : List (String × Context)} {c after : Context} :
    after = (alone.map Prod.snd).foldl Context.append c ↔
      after.diagnostics.toList =
          c.diagnostics.toList ++ alone.flatMap (fun result => result.2.diagnostics.toList) ∧
        after.log.toList = c.log.toList ++ alone.flatMap fun result => result.2.log.toList := by
  have hd := diagnostics_foldl (alone.map Prod.snd) c
  have hl := log_foldl (alone.map Prod.snd) c
  rw [List.flatMap_map] at hd hl
  rw [← hd, ← hl, Array.toList_inj, Array.toList_inj]
  constructor
  · rintro rfl
    exact ⟨rfl, rfl⟩
  · obtain ⟨diagnostics, log⟩ := after
    rintro ⟨rfl, rfl⟩
    rfl

end Runs

/-- A run gives what each request gives alone, and leaves what was reported before it, followed by what
each request reports alone. What the first requests have reported stays at the front. -/
theorem performAll_isolated (target : Target) (requests : List Request) (c : Context)
    (outputs : List String) (after : Context) :
    ((performAll target requests).run c = some (outputs, after) ↔ ∃ alone : List (String × Context),
      List.Forall₂ (fun request result => (request.perform target).run Context.empty = some result)
        requests alone ∧
      outputs = alone.map Prod.fst ∧
      after.diagnostics.toList =
        c.diagnostics.toList ++ alone.flatMap (fun result => result.2.diagnostics.toList) ∧
      after.log.toList = c.log.toList ++ alone.flatMap fun result => result.2.log.toList) ∧
    ((performAll target requests).run c = some (outputs, after) → ∀ n, ∃ between,
      (performAll target (requests.take n)).run c = some (outputs.take n, between) ∧
        between.diagnostics.toList <+: after.diagnostics.toList) := by
  simp only [← eq_foldl_append]
  refine ⟨performAll_eq_some, fun h n => ?_⟩
  obtain ⟨alone, hall, rfl, rfl⟩ := performAll_eq_some.mp h
  refine ⟨_, performAll_eq_some.mpr
    ⟨alone.take n, List.forall₂_take n hall, List.map_take.symm, rfl⟩, ?_⟩
  -- What the later requests report is folded onto what the first ones have left.
  have hrest := diagnostics_foldl ((alone.drop n).map Prod.snd)
    (((alone.take n).map Prod.snd).foldl Context.append c)
  rw [← List.foldl_append, ← List.map_append, List.take_append_drop] at hrest
  rw [hrest]
  exact List.prefix_append _ _

end TreeMarkup.Markup
