import Mathlib.Data.List.Induction
import Mathlib.Logic.Function.Basic
import TreeMarkup.Registry.Binding

/-! Whatever is inserted into a flat registry and bound in it, each name stands for a host component under
layers of ambient attributes, and stays so until something is registered under that name. -/

namespace TreeMarkup.FlatRegistry

inductive Change where
  | insert (name host : String) (defaults : Attributes)
  | bind (root adapter : String) (ambient : Attributes) (distinct : Fields.Distinct ambient)

structure Layered where
  host : String
  defaults : Attributes
  layers : List Attributes

namespace Change

def apply (flat : FlatRegistry) : Change → FlatRegistry
  | .insert name host defaults => NameMap.insert name (.host host defaults) flat
  | .bind root adapter ambient _ => (flat.bindRoot root ambient adapter).registry

def written (flat : FlatRegistry) : Change → Option String
  | .insert name _ _ => some name
  | .bind root adapter _ _ => if NameMap.contains flat root then some adapter else none

def means (meaning : String → Option Layered) : Change → String → Option Layered
  | .insert name host defaults => Function.update meaning name (some ⟨host, defaults, []⟩)
  | .bind root adapter ambient _ =>
    match meaning root with
    | none => meaning
    | some l => Function.update meaning adapter (some { l with layers := ambient :: l.layers })

end Change

def run (changes : List Change) : FlatRegistry :=
  changes.foldl Change.apply []

def meaning (changes : List Change) : String → Option Layered :=
  changes.foldl Change.means fun _ => none

def fresh (present : List String) : List (String × Json) → List (String × Json)
  | [] => []
  | (name, value) :: rest =>
    if name ∈ present then fresh present rest
    else (name, value) :: fresh (present ++ [name]) rest

def Layered.receives (l : Layered) (attributes : Attributes) : Attributes :=
  attributes ++ fresh (Fields.names attributes) l.layers.flatten

structure Denotes (component : Component) (l : Layered) : Prop where
  defaults : component.defaults = l.defaults
  renders : ∀ attributes, component.render attributes = ⟨l.host, l.receives attributes⟩

def Represents (flat : FlatRegistry) (meaning : String → Option Layered) : Prop :=
  ∀ name, Option.Rel Denotes (NameMap.get? flat name) (meaning name)

section Fresh

lemma fresh_append (present : List String) (first more : List (String × Json)) :
    fresh present (first ++ more) = fresh present first ++
      fresh (present ++ Fields.names (fresh present first)) more := by
  induction first generalizing present with
  | nil => simp [fresh, Fields.names]
  | cons e rest ih =>
    obtain ⟨name, value⟩ := e
    by_cases hp : name ∈ present
    · simp [fresh, hp, ih present]
    · simp [fresh, hp, ih (present ++ [name]), Fields.names]

lemma fresh_of_distinct {entries : List (String × Json)} (h : Fields.Distinct entries)
    (present : List String) : fresh present entries = entries.filter fun e => e.1 ∉ present := by
  induction entries generalizing present with
  | nil => rfl
  | cons e rest ih =>
    obtain ⟨name, value⟩ := e
    obtain ⟨hname, hrest⟩ := List.nodup_cons.mp h
    by_cases hp : name ∈ present
    · simp [fresh, hp, ih hrest]
    · have hf : (rest.filter fun e => e.1 ∉ present ++ [name]) =
          rest.filter fun e => e.1 ∉ present := by
        apply List.filter_congr
        intro e he
        have hne : e.1 ≠ name := fun heq => hname (List.mem_map.mpr ⟨e, he, heq⟩)
        simp [hne]
      rw [fresh, if_neg hp, ih hrest, hf, List.filter_cons_of_pos (by simpa using hp)]

lemma fill_eq_fresh {ambient : Attributes} (h : Fields.Distinct ambient) (attributes : Attributes) :
    Fields.fill attributes ambient = attributes ++ fresh (Fields.names attributes) ambient := by
  have hc (name : String) :
      (!Fields.contains attributes name) = decide (name ∉ Fields.names attributes) := by
    cases hg : Fields.get? attributes name with
    | none =>
      have hn : name ∉ Fields.names attributes := by
        intro hm
        obtain ⟨value, hv⟩ := Fields.get?_of_mem_names hm
        exact absurd (hg.symm.trans hv) (by simp)
      simp [Fields.contains, hg, hn]
    | some value => simp [Fields.contains, hg, Fields.mem_names_of_get? hg]
  simp only [Fields.fill, hc, fresh_of_distinct h]

end Fresh

section Steps

variable {flat : FlatRegistry} {m : String → Option Layered}

lemma denotes_host (host : String) (defaults : Attributes) :
    Denotes (.host host defaults) ⟨host, defaults, []⟩ :=
  ⟨rfl, fun attributes => by simp [Layered.receives, fresh]⟩

lemma Denotes.adapter {component : Component} {l : Layered} (h : Denotes component l)
    (root : String) {ambient : Attributes} (hd : Fields.Distinct ambient) :
    Denotes (.adapter root component ambient) { l with layers := ambient :: l.layers } := by
  refine ⟨h.defaults, fun attributes => ?_⟩
  have hnames : Fields.names (Fields.fill attributes ambient) =
      Fields.names attributes ++ Fields.names (fresh (Fields.names attributes) ambient) := by
    rw [fill_eq_fresh hd]
    exact List.map_append
  rw [Component.render_adapter, h.renders, Layered.receives, Layered.receives, hnames, fill_eq_fresh hd,
    List.flatten_cons, fresh_append, List.append_assoc]

lemma represents_insert (h : Represents flat m) (name : String) {component : Component}
    {l : Layered} (hc : Denotes component l) :
    Represents (NameMap.insert name component flat) (Function.update m name (some l)) := by
  intro other
  rw [NameMap.get?_insert]
  by_cases hn : name = other
  · subst hn
    rw [if_pos rfl, Function.update_self]
    exact .some hc
  · rw [if_neg hn, Function.update_of_ne (Ne.symm hn)]
    exact h other

lemma represents_apply (h : Represents flat m) (change : Change) :
    Represents (change.apply flat) (change.means m) := by
  cases change with
  | insert name host defaults => exact represents_insert h name (denotes_host host defaults)
  | bind root adapter ambient distinct =>
    have hroot := h root
    cases hg : NameMap.get? flat root with
    | none =>
      rw [hg] at hroot
      cases hm : m root with
      | none => simpa only [Change.apply, Change.means, bindRoot, hg, hm] using h
      | some l =>
        rw [hm] at hroot
        cases hroot
    | some component =>
      rw [hg] at hroot
      cases hm : m root with
      | none =>
        rw [hm] at hroot
        cases hroot
      | some l =>
        rw [hm] at hroot
        cases hroot with
        | some hc =>
          simp only [Change.apply, Change.means, bindRoot, hg, hm]
          exact represents_insert h adapter (hc.adapter root distinct)

lemma represents_run (changes : List Change) : Represents (run changes) (meaning changes) := by
  have hall : ∀ flat m, Represents flat m →
      Represents (changes.foldl Change.apply flat) (changes.foldl Change.means m) := by
    induction changes with
    | nil => exact fun _ _ h => h
    | cons change rest ih => exact fun _ _ h => ih _ _ (represents_apply h change)
  exact hall [] _ fun _ => .none

lemma get?_apply {change : Change} {name : String} (h : change.written flat ≠ some name) :
    NameMap.get? (change.apply flat) name = NameMap.get? flat name := by
  cases change with
  | insert other host defaults =>
    have hne : name ≠ other := fun he => h (congrArg some he.symm)
    exact NameMap.get?_insert_of_ne hne _ flat
  | bind root adapter ambient distinct =>
    cases hg : NameMap.get? flat root with
    | none => simp only [Change.apply, bindRoot, hg]
    | some component =>
      have hne : name ≠ adapter := by
        rintro rfl
        simp [Change.written, NameMap.contains, hg] at h
      simp only [Change.apply, bindRoot, hg, NameMap.get?_insert_of_ne hne]

lemma run_concat (changes : List Change) (change : Change) :
    run (changes ++ [change]) = change.apply (run changes) := by
  simp [run]

lemma get?_run_kept {name : String} (before later : List Change)
    (h : ∀ earlier change rest, later = earlier ++ change :: rest →
      change.written (run (before ++ earlier)) ≠ some name) :
    NameMap.get? (run (before ++ later)) name = NameMap.get? (run before) name := by
  induction later using List.reverseRecOn with
  | nil => rw [List.append_nil]
  | append_singleton later change ih =>
    have hlast := h later change [] rfl
    have hearlier := ih fun earlier other rest he =>
      h earlier other (rest ++ [change]) (by rw [he]; simp)
    rw [← List.append_assoc, run_concat, get?_apply hlast, hearlier]

end Steps

/-- Each name stands for the host component and the layers that the changes give it; a change touches no
other entry than its own; and an adapter goes on rendering the component that was there when it was
bound. -/
theorem run_layered :
    (∀ changes name, Option.Rel Denotes (NameMap.get? (run changes) name) (meaning changes name)) ∧
    (∀ flat (change : Change) name, change.written flat ≠ some name →
      NameMap.get? (change.apply flat) name = NameMap.get? flat name) ∧
    ∀ before root adapter ambient (distinct : Fields.Distinct ambient) later,
      NameMap.contains (run before) root = true →
      (∀ earlier change rest, later = earlier ++ change :: rest →
        change.written (run (before ++ [.bind root adapter ambient distinct] ++ earlier)) ≠
          some adapter) →
      ∀ attributes,
        (run (before ++ [.bind root adapter ambient distinct] ++ later)).render adapter attributes =
          (run before).render root
            (attributes ++ fresh (Fields.names attributes) ambient) := by
  refine ⟨represents_run, fun flat change name h => get?_apply h, ?_⟩
  intro before root adapter ambient distinct later hroot hlater attributes
  obtain ⟨component, hg⟩ := Option.isSome_iff_exists.mp hroot
  have hbound : NameMap.get? (run (before ++ [.bind root adapter ambient distinct])) adapter =
      some (.adapter root component ambient) := by
    rw [run_concat]
    simp only [Change.apply, bindRoot, hg, NameMap.get?_insert, if_pos]
  rw [render, render, get?_run_kept _ later hlater, hbound, hg, ← fill_eq_fresh distinct]
  rfl

section Shell

lemma distinct_shell : Fields.Distinct [("theme", Json.string "dark"), ("size", .bool true)] := by
  simp [Fields.Distinct, Fields.names]

def shellBefore : List Change :=
  [.insert "Panel" "Panel" [("gap", .null)],
    .bind "Panel" "Panel" [("theme", .string "dark"), ("size", .bool true)] distinct_shell]

def shellAmbient : Attributes :=
  [("theme", .string "light")]

lemma distinct_shellAmbient : Fields.Distinct shellAmbient := by
  simp [shellAmbient, Fields.Distinct, Fields.names]

def shellLater : List Change :=
  [.insert "Panel" "Other" []]

lemma written_shellLater (flat : List Change → FlatRegistry) (earlier : List Change)
    (change : Change) (rest : List Change) (h : shellLater = earlier ++ change :: rest) :
    change.written (flat earlier) ≠ some "Root" := by
  have hm : change ∈ shellLater := by rw [h]; simp
  obtain rfl := List.mem_singleton.mp hm
  simp [Change.written]

end Shell

theorem run_layered_shell : NameMap.contains (run shellBefore) "Panel" = true ∧
    (∀ earlier change rest, shellLater = earlier ++ change :: rest →
      change.written (run (shellBefore ++
        [.bind "Panel" "Root" shellAmbient distinct_shellAmbient] ++ earlier)) ≠ some "Root") ∧
    (run (shellBefore ++ [.bind "Panel" "Root" shellAmbient distinct_shellAmbient] ++
        shellLater)).render "Root" [("title", .null)] =
      some ⟨"Panel", [("title", .null), ("theme", .string "light"), ("size", .bool true)]⟩ ∧
    Change.written (run shellBefore) (.insert "Panel" "Other" []) ≠ some "Root" ∧
    NameMap.get? (Change.apply (run shellBefore) (.insert "Panel" "Other" [])) "Root" =
      NameMap.get? (run shellBefore) "Root" := by
  obtain ⟨_, hframe, hkept⟩ := run_layered
  have hroot : NameMap.contains (run shellBefore) "Panel" = true := rfl
  have hlater := written_shellLater fun earlier =>
    run (shellBefore ++ [.bind "Panel" "Root" shellAmbient distinct_shellAmbient] ++ earlier)
  have hrender := hkept shellBefore "Panel" "Root" shellAmbient distinct_shellAmbient shellLater
    hroot hlater [("title", .null)]
  have hwritten : Change.written (run shellBefore) (.insert "Panel" "Other" []) ≠ some "Root" := by
    simp [Change.written]
  exact ⟨hroot, hlater, hrender.trans rfl, hwritten, hframe _ _ "Root" hwritten⟩

end TreeMarkup.FlatRegistry
