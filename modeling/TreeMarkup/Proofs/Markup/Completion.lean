import Mathlib.Data.List.Nodup
import Mathlib.Logic.Relation
import TreeMarkup.Markup.Build
import TreeMarkup.Proofs.Markup.Places
import TreeMarkup.Registry.Manifest

/-! Compiling ends unless some node that it comes to stands inside itself. The depth that the
compiler allows is never too small: nodes inside one another come from finitely many places. -/

namespace TreeMarkup.Markup

open Relation

section Descent

variable {α : Type} {r : α → α → Prop}

def Descends (r : α → α → Prop) : Nat → α → Prop
  | 0, _ => True
  | n + 1, x => ∃ y, r x y ∧ Descends r n y

lemma descends_pred {n : Nat} {x : α} (h : Descends r (n + 1) x) : Descends r n x := by
  induction n generalizing x with
  | zero => trivial
  | succ n ih =>
    obtain ⟨y, hy, h⟩ := h
    exact ⟨y, hy, ih h⟩

lemma descends_head {n : Nat} {x y : α} (hxy : ReflTransGen r x y) (h : Descends r n y) :
    Descends r n x := by
  induction hxy using ReflTransGen.head_induction_on with
  | refl => exact h
  | head hstep _ ih => exact descends_pred ⟨_, hstep, ih⟩

lemma descends_of_cycle {x : α} (h : TransGen r x x) (n : Nat) : Descends r n x := by
  induction n with
  | zero => trivial
  | succ n ih =>
    obtain ⟨y, hstep, hrest⟩ := TransGen.head'_iff.mp h
    exact ⟨y, hstep, descends_head hrest ih⟩

lemma exists_cycle {places : List α} (hclosed : ∀ x ∈ places, ∀ y, r x y → y ∈ places) {n : Nat}
    {seen : List α} (hseen : seen.Nodup) (hsub : seen ⊆ places) (hlen : places.length < seen.length + n)
    {x : α} (hx : x ∈ places) (hreach : ∀ s ∈ seen, TransGen r s x) (h : Descends r n x) :
    ∃ y, ReflTransGen r x y ∧ TransGen r y y := by
  -- `seen` holds the places passed on the way to `x`, until there is no room for one more.
  induction n generalizing seen x with
  | zero =>
    have hle := hseen.length_le_of_subset hsub
    omega
  | succ n ih =>
    by_cases hm : x ∈ seen
    · exact ⟨x, .refl, hreach x hm⟩
    · obtain ⟨y, hstep, h⟩ := h
      have hsub' : x :: seen ⊆ places := List.cons_subset.mpr ⟨hx, hsub⟩
      have hlen' : places.length < (x :: seen).length + n := by
        rw [List.length_cons]
        omega
      have hreach' : ∀ s ∈ x :: seen, TransGen r s y := by
        intro s hs
        rcases List.mem_cons.mp hs with rfl | hs
        · exact .single hstep
        · exact (hreach s hs).tail hstep
      obtain ⟨z, hyz, hz⟩ :=
        ih (List.nodup_cons.mpr ⟨hm, hseen⟩) hsub' hlen' (hclosed x hx y hstep) hreach' h
      exact ⟨z, .head hstep hyz, hz⟩

end Descent

section Completion

variable {target : Target} {node : Node}

/-- Some node that compiling comes to stands inside itself. -/
def Endless (target : Target) (node : Node) : Prop :=
  ∃ sub, ReflTransGen (Nests target) node sub ∧ TransGen (Nests target) sub sub

lemma unfoldWithin_eq_none {depth : Nat} :
    unfoldWithin target depth node = none ↔ Descends (Nests target) depth node := by
  induction depth generalizing node with
  | zero => simp [unfoldWithin, Descends]
  | succ depth ih =>
    rw [unfoldWithin_succ_eq_none]
    constructor
    · rintro ⟨sub, hn, hu⟩
      exact ⟨sub, hn, ih.mp hu⟩
    · rintro ⟨sub, hn, hd⟩
      exact ⟨sub, hn, ih.mpr hd⟩

lemma unfoldWithin_of_endless (h : Endless target node) (depth : Nat) :
    unfoldWithin target depth node = none := by
  obtain ⟨sub, hns, hss⟩ := h
  exact unfoldWithin_eq_none.mpr (descends_head hns (descends_of_cycle hss depth))

lemma unfoldWithin_depthFor :
    unfoldWithin target (depthFor target node) node = none ↔ Endless target node := by
  constructor
  · intro h
    have hlen : (places target node).length < ([] : List Node).length + depthFor target node := by
      have hp := length_places target node
      simpa using hp
    exact exists_cycle (fun x hx y hxy => places_closed hx hxy) List.nodup_nil
      (List.nil_subset _) hlen self_mem_places (fun s hs => absurd hs List.not_mem_nil)
      (unfoldWithin_eq_none.mp h)
  · intro h
    exact unfoldWithin_of_endless h _

lemma compile_eq_none : compile target node = none ↔ Endless target node := by
  rw [compile_eq, Option.map_eq_none_iff, unfoldWithin_depthFor]

lemma exists_depth_iff :
    (∃ depth, ((compileWithin target depth node 0 []).run Context.empty).isSome) ↔
      ¬Endless target node := by
  constructor
  · rintro ⟨depth, hs⟩ he
    have hu := unfoldWithin_of_endless he depth
    rw [compileWithin_run target depth node 0 [] Context.empty, hu] at hs
    exact Bool.false_ne_true hs
  · intro he
    refine ⟨depthFor target node, ?_⟩
    rw [compileWithin_run target _ node 0 [] Context.empty, Option.isSome_map,
      Option.isSome_iff_ne_none]
    exact fun hu => he (unfoldWithin_depthFor.mp hu)

end Completion

section Build

def BoundTo (tree : Json) (registry : Registry) (aliases : Json) (ambient : Attributes)
    (options : Options) (target : Target) (root : Node) : Prop :=
  ∃ members name flat aliased log,
    tree = .object members ∧ Node.componentOf members = some name ∧ registry.flatten = .ok flat ∧
    aliasTree members aliases = .ok (aliased, log) ∧
    target = ⟨(flat.bindRoot name ambient options.rootAdapter).registry, options⟩ ∧
    root = { Node.ofMembers aliased with
      component := some (flat.bindRoot name ambient options.rootAdapter).root }

variable {tree : Json} {registry : Registry} {aliases : Json} {ambient : Attributes}
  {options : Options}

lemma compileBound_eq_none {members : Json.Members} {binding : Binding} {log : Log} :
    compileBound members aliases options binding log = none ↔
      ∃ aliased aliasLog, aliasTree members aliases = .ok (aliased, aliasLog) ∧
        Endless ⟨binding.registry, options⟩
          { Node.ofMembers aliased with component := some binding.root } := by
  rw [compileBound]
  cases ha : aliasTree members aliases with
  | error e => simp
  | ok found =>
    obtain ⟨aliased, aliasLog⟩ := found
    simp [compile_eq_none]

lemma build_eq_none : build tree registry aliases ambient options = none ↔
    ∃ target root, BoundTo tree registry aliases ambient options target root ∧
      Endless target root := by
  constructor
  · intro h
    unfold build at h
    split at h
    · next members =>
      split at h
      · exact absurd h (by simp)
      · next name hn =>
        split at h
        · exact absurd h (by simp)
        · next flat hf =>
          obtain ⟨aliased, log, ha, he⟩ := compileBound_eq_none.mp h
          exact ⟨_, _, ⟨members, name, flat, aliased, log, rfl, hn, hf, ha, rfl, rfl⟩, he⟩
    · exact absurd h (by simp)
  · rintro ⟨_, _, ⟨members, name, flat, aliased, log, rfl, hn, hf, ha, rfl, rfl⟩, he⟩
    simp only [build, hn, hf]
    exact compileBound_eq_none.mpr ⟨aliased, log, ha, he⟩

end Build

/-- Compiling ends, and building has a result, exactly if no node that is come to stands inside
itself. -/
theorem completes_iff_not_endless (target : Target) (node : Node) (tree : Json) (registry : Registry)
    (aliases : Json) (ambient : Attributes) (options : Options) :
    ((∃ depth, ((compileWithin target depth node 0 []).run Context.empty).isSome) ↔
      ¬Endless target node) ∧
    ((compile target node).isSome ↔ ¬Endless target node) ∧
    ((build tree registry aliases ambient options).isSome ↔
      ∀ target root, BoundTo tree registry aliases ambient options target root →
        ¬Endless target root) := by
  refine ⟨exists_depth_iff, ?_, ?_⟩
  · rw [Option.isSome_iff_ne_none, ne_eq, compile_eq_none]
  · rw [Option.isSome_iff_ne_none, ne_eq, build_eq_none]
    constructor
    · intro h target root hb he
      exact h ⟨target, root, hb, he⟩
    · rintro h ⟨target, root, hb, he⟩
      exact h target root hb he

section Mirror

def mirrorManifest : Json :=
  .object [("Box", .object [("defaultAttributes", .object
    [("Inner", .object [("_", .string "Box")])])])]

def mirrorDefinition : Json :=
  .object [("_", .string "Box")]

def mirrorRegistry : Registry :=
  [("Box", .component (.host "Box" [("Inner", .object [("_", .string "Box")])]))]

def mirrorFlat : FlatRegistry :=
  [("Box", .host "Box" [("Inner", .object [("_", .string "Box")])])]

lemma ofManifest_mirror : Registry.ofManifest mirrorManifest = .ok mirrorRegistry := by
  rfl

lemma flatten_mirror : mirrorRegistry.flatten = .ok mirrorFlat := by
  rfl

lemma endless_mirror (options : Options) :
    Endless ⟨mirrorFlat, options⟩ (Node.ofJson mirrorDefinition) := by
  have hn : Nests ⟨mirrorFlat, options⟩ (Node.ofJson mirrorDefinition)
      (Node.ofJson mirrorDefinition) :=
    ⟨.block 0, _, .block rfl rfl⟩
  exact ⟨_, .refl, .single hn⟩

end Mirror

theorem not_completes_of_mirror : ¬∀ (manifest : Json) (registry : Registry) (flat : FlatRegistry),
    Registry.ofManifest manifest = .ok registry → registry.flatten = .ok flat →
    ∀ (definition : Json) (options : Options), ∃ depth,
      ((compileWithin ⟨flat, options⟩ depth (Node.ofJson definition) 0 []).run
        Context.empty).isSome := by
  intro h
  have hs := h mirrorManifest mirrorRegistry mirrorFlat ofManifest_mirror flatten_mirror
    mirrorDefinition Options.default
  exact exists_depth_iff.mp hs (endless_mirror _)

end TreeMarkup.Markup
