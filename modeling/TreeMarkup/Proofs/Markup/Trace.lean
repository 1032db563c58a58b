import TreeMarkup.Proofs.Markup.Nesting

/-! The trace of an unfolding tells in the order of the markup what each node and attribute leaves: a
tag or a fault, at the route that leads to it. Diagnostics and tags are read off the trace. -/

namespace TreeMarkup.Markup

inductive Mark where
  | tag (name : String)
  | unresolved (component : Option String)
  | unevaluable (key : String)
deriving DecidableEq

structure Site where
  route : List Turn
  path : Path
  mark : Mark
deriving DecidableEq

def Turn.Before : Turn → Turn → Prop
  | .block i, .block j => i < j
  | .block _, .child _ => True
  | .child _, .block _ => False
  | .child i, .child j => i < j

namespace Site

def under (turn : Turn) (steps : Path) (s : Site) : Site :=
  ⟨turn :: s.route, steps ++ s.path, s.mark⟩

/-- A site comes before what is inside it and before what comes after it around it. -/
def Earlier (s t : Site) : Prop :=
  List.Lex Turn.Before s.route t.route

def tag? (s : Site) : Option String :=
  match s.mark with
  | .tag name => some name
  | _ => none

def diagnostic? (s : Site) : Option Diagnostic :=
  match s.mark with
  | .tag _ => none
  | .unresolved component =>
    some ⟨.warning, .unresolvedComponent,
      "Unable to find definition of `" ++ component.getD "<none>" ++ "`; ignored", some s.path.text⟩
  | .unevaluable key =>
    some ⟨.warning, .unevaluableAttribute,
      "Unable to evaluate element prop `" ++ key ++ "`", some s.path.text⟩

end Site

namespace Unfolding

mutual

def trace : Unfolding → List Site
  | .missing component => [⟨[], [], .unresolved component⟩]
  | .tag name attributes _ none => ⟨[], [], .tag name⟩ :: attributesTrace 0 attributes
  | .tag name attributes key (some children) =>
    ⟨[], [], .tag name⟩ :: (attributesTrace 0 attributes ++ childrenTrace key 0 children)

def attributesTrace (i : Nat) : List (String × Part Unfolding) → List Site
  | [] => []
  | (name, part) :: rest => partTrace i name part ++ attributesTrace (i + 1) rest

def partTrace (i : Nat) (name : String) : Part Unfolding → List Site
  | .block inner => (trace inner).map (Site.under (.block i) [.key name])
  | .unevaluable => [⟨[.block i], [], .unevaluable name⟩]
  | _ => []

def childrenTrace (key : String) (i : Nat) : List Unfolding → List Site
  | [] => []
  | child :: rest =>
    (trace child).map (Site.under (.child i) [.key key, .index i]) ++ childrenTrace key (i + 1) rest

end

lemma trace_tag (name : String) (parts : List (String × Part Unfolding)) (key : String)
    (us : Option (List Unfolding)) :
    (Unfolding.tag name parts key us).trace =
      ⟨[], [], .tag name⟩ :: (attributesTrace 0 parts ++ (us.map (childrenTrace key 0)).getD []) := by
  cases us <;> simp [trace]

lemma attributesTrace_append (i : Nat) (ps qs : List (String × Part Unfolding)) :
    attributesTrace i (ps ++ qs) = attributesTrace i ps ++ attributesTrace (i + ps.length) qs := by
  induction ps generalizing i with
  | nil => simp [attributesTrace]
  | cons p rest ih =>
    obtain ⟨name, part⟩ := p
    rw [List.cons_append, attributesTrace, attributesTrace, ih, List.append_assoc, List.length_cons,
      Nat.add_right_comm i 1, Nat.add_assoc i]

lemma childrenTrace_append (key : String) (i : Nat) (us vs : List Unfolding) :
    childrenTrace key i (us ++ vs) =
      childrenTrace key i us ++ childrenTrace key (i + us.length) vs := by
  induction us generalizing i with
  | nil => simp [childrenTrace]
  | cons u rest ih =>
    rw [List.cons_append, childrenTrace, childrenTrace, ih, List.append_assoc, List.length_cons,
      Nat.add_right_comm i 1, Nat.add_assoc i]

end Unfolding

section Order

lemma earlier_under {s t : Site} (h : s.Earlier t) (turn : Turn) (steps : Path) :
    (s.under turn steps).Earlier (t.under turn steps) :=
  .cons h

lemma sorted_under {trace : List Site} (h : trace.Pairwise Site.Earlier) (turn : Turn)
    (steps : Path) : (trace.map (Site.under turn steps)).Pairwise Site.Earlier := by
  rw [List.pairwise_map]
  exact h.imp fun hst => earlier_under hst turn steps

lemma route_partTrace {i : Nat} {name : String} {part : Part Unfolding} {s : Site}
    (h : s ∈ Unfolding.partTrace i name part) : ∃ route, s.route = .block i :: route := by
  cases part with
  | block inner =>
    rw [Unfolding.partTrace] at h
    obtain ⟨t, _, rfl⟩ := List.mem_map.mp h
    exact ⟨t.route, rfl⟩
  | unevaluable =>
    rw [Unfolding.partTrace, List.mem_singleton] at h
    exact ⟨[], by rw [h]⟩
  | _ => simp [Unfolding.partTrace] at h

lemma route_attributesTrace {i : Nat} {parts : List (String × Part Unfolding)} {s : Site}
    (h : s ∈ Unfolding.attributesTrace i parts) :
    ∃ j route, i ≤ j ∧ j < i + parts.length ∧ s.route = .block j :: route := by
  induction parts generalizing i with
  | nil => simp [Unfolding.attributesTrace] at h
  | cons p rest ih =>
    obtain ⟨name, part⟩ := p
    rw [Unfolding.attributesTrace] at h
    rw [List.length_cons]
    rcases List.mem_append.mp h with h | h
    · obtain ⟨route, hr⟩ := route_partTrace h
      exact ⟨i, route, Nat.le_refl i, by omega, hr⟩
    · obtain ⟨j, route, hj, hlt, hr⟩ := ih h
      exact ⟨j, route, by omega, by omega, hr⟩

lemma route_childrenTrace {key : String} {i : Nat} {us : List Unfolding} {s : Site}
    (h : s ∈ Unfolding.childrenTrace key i us) :
    ∃ j route, i ≤ j ∧ j < i + us.length ∧ s.route = .child j :: route := by
  induction us generalizing i with
  | nil => simp [Unfolding.childrenTrace] at h
  | cons u rest ih =>
    rw [Unfolding.childrenTrace] at h
    rw [List.length_cons]
    rcases List.mem_append.mp h with h | h
    · obtain ⟨t, _, rfl⟩ := List.mem_map.mp h
      exact ⟨i, t.route, Nat.le_refl i, by omega, rfl⟩
    · obtain ⟨j, route, hj, hlt, hr⟩ := ih h
      exact ⟨j, route, by omega, by omega, hr⟩

lemma earlier_of_turns {s t : Site} {first second : Turn} {route more : List Turn}
    (hs : s.route = first :: route) (ht : t.route = second :: more) (h : first.Before second) :
    s.Earlier t := by
  rw [Site.Earlier, hs, ht]
  exact .rel h

mutual

lemma sorted_trace : ∀ u : Unfolding, u.trace.Pairwise Site.Earlier
  | .missing component => by
    rw [Unfolding.trace]
    exact List.pairwise_singleton _ _
  | .tag name attributes key none => by
    rw [Unfolding.trace, List.pairwise_cons]
    refine ⟨?_, sorted_attributesTrace 0 attributes⟩
    intro s hs
    obtain ⟨j, route, _, _, hr⟩ := route_attributesTrace hs
    rw [Site.Earlier, hr]
    exact .nil
  | .tag name attributes key (some children) => by
    rw [Unfolding.trace, List.pairwise_cons]
    have ha := sorted_attributesTrace 0 attributes
    have hc := sorted_childrenTrace key 0 children
    refine ⟨?_, List.pairwise_append.mpr ⟨ha, hc, ?_⟩⟩
    · intro s hs
      rw [Site.Earlier]
      rcases List.mem_append.mp hs with hs | hs
      · obtain ⟨j, route, _, _, hr⟩ := route_attributesTrace hs
        rw [hr]
        exact .nil
      · obtain ⟨j, route, _, _, hr⟩ := route_childrenTrace hs
        rw [hr]
        exact .nil
    · intro s hs t ht
      obtain ⟨j, route, _, _, hr⟩ := route_attributesTrace hs
      obtain ⟨k, more, _, _, hm⟩ := route_childrenTrace ht
      exact earlier_of_turns hr hm trivial

lemma sorted_attributesTrace : ∀ (i : Nat) (parts : List (String × Part Unfolding)),
    (Unfolding.attributesTrace i parts).Pairwise Site.Earlier
  | i, [] => by
    rw [Unfolding.attributesTrace]
    exact .nil
  | i, (name, part) :: rest => by
    rw [Unfolding.attributesTrace]
    refine List.pairwise_append.mpr
      ⟨sorted_partTrace i name part, sorted_attributesTrace (i + 1) rest, ?_⟩
    intro s hs t ht
    obtain ⟨route, hr⟩ := route_partTrace hs
    obtain ⟨j, more, hj, _, hm⟩ := route_attributesTrace ht
    exact earlier_of_turns hr hm (show i < j by omega)

lemma sorted_partTrace : ∀ (i : Nat) (name : String) (part : Part Unfolding),
    (Unfolding.partTrace i name part).Pairwise Site.Earlier
  | i, name, .block inner => by
    rw [Unfolding.partTrace]
    exact sorted_under (sorted_trace inner) _ _
  | i, name, .unevaluable => by
    rw [Unfolding.partTrace]
    exact List.pairwise_singleton _ _
  | i, name, .bare | i, name, .text _ | i, name, .literal _ | i, name, .reference _
  | i, name, .dropped => by
    rw [Unfolding.partTrace]
    · exact .nil
    all_goals simp

lemma sorted_childrenTrace : ∀ (key : String) (i : Nat) (us : List Unfolding),
    (Unfolding.childrenTrace key i us).Pairwise Site.Earlier
  | key, i, [] => by
    rw [Unfolding.childrenTrace]
    exact .nil
  | key, i, u :: rest => by
    rw [Unfolding.childrenTrace]
    refine List.pairwise_append.mpr
      ⟨sorted_under (sorted_trace u) _ _, sorted_childrenTrace key (i + 1) rest, ?_⟩
    intro s hs t ht
    obtain ⟨s, _, rfl⟩ := List.mem_map.mp hs
    obtain ⟨j, more, hj, _, hm⟩ := route_childrenTrace ht
    exact earlier_of_turns rfl hm (show i < j by omega)

end

end Order

section Log

def Site.diagnosticAt (path : Path) (s : Site) : Option Diagnostic :=
  match s.mark with
  | .tag _ => none
  | .unresolved component => some (unresolved component (path ++ s.path))
  | .unevaluable key => some (unevaluable key (path ++ s.path))

lemma diagnosticAt_nil (s : Site) : s.diagnosticAt [] = s.diagnostic? := by
  obtain ⟨route, path, mark⟩ := s
  cases mark <;> rfl

lemma diagnosticAt_under (path : Path) (turn : Turn) (steps : Path) (s : Site) :
    (s.under turn steps).diagnosticAt path = s.diagnosticAt (path ++ steps) := by
  simp [Site.diagnosticAt, Site.under]

lemma filterMap_under (path : Path) (turn : Turn) (steps : Path) (trace : List Site) :
    (trace.map (Site.under turn steps)).filterMap (Site.diagnosticAt path) =
      trace.filterMap (Site.diagnosticAt (path ++ steps)) := by
  rw [List.filterMap_map]
  exact List.filterMap_congr fun s _ => diagnosticAt_under path turn steps s

lemma diagnostics_append (first second : Log) :
    Log.diagnostics (first ++ second) = Log.diagnostics first ++ Log.diagnostics second :=
  List.filterMap_append

lemma diagnostics_compiling (name : String) (level : Nat) (log : Log) :
    Log.diagnostics (.compiling name level :: log) = Log.diagnostics log :=
  List.filterMap_cons_none rfl

lemma filterMap_tag (path : Path) (name : String) (trace : List Site) :
    (⟨[], [], .tag name⟩ :: trace).filterMap (Site.diagnosticAt path) =
      trace.filterMap (Site.diagnosticAt path) :=
  List.filterMap_cons_none rfl

mutual

lemma diagnostics_log : ∀ (u : Unfolding) (level : Nat) (path : Path),
    (u.log level path).diagnostics = u.trace.filterMap (Site.diagnosticAt path)
  | .missing component, level, path => by
    simp [Unfolding.log, Unfolding.trace, Log.diagnostics, Event.diagnostic?, Site.diagnosticAt]
  | .tag name attributes key none, level, path => by
    have ha := diagnostics_attributesLog attributes (level + 1) path 0
    rw [Unfolding.log, Unfolding.trace, diagnostics_compiling, filterMap_tag, ha]
  | .tag name attributes key (some children), level, path => by
    have ha := diagnostics_attributesLog attributes (level + 1) path 0
    have hc := diagnostics_childrenLog children (level + 1) path key 0
    rw [Unfolding.log, Unfolding.trace, diagnostics_compiling, filterMap_tag, diagnostics_append, ha,
      hc, List.filterMap_append]

lemma diagnostics_attributesLog : ∀ (parts : List (String × Part Unfolding)) (level : Nat)
    (path : Path) (i : Nat), (Unfolding.attributesLog level path parts).diagnostics =
      (Unfolding.attributesTrace i parts).filterMap (Site.diagnosticAt path)
  | [], level, path, i => by
    simp [Unfolding.attributesLog, Unfolding.attributesTrace, Log.diagnostics]
  | (name, part) :: rest, level, path, i => by
    have hp := diagnostics_partLog part level path i name
    have hr := diagnostics_attributesLog rest level path (i + 1)
    rw [Unfolding.attributesLog, Unfolding.attributesTrace, diagnostics_append, hp, hr,
      List.filterMap_append]

lemma diagnostics_partLog : ∀ (part : Part Unfolding) (level : Nat) (path : Path) (i : Nat)
    (name : String), (Unfolding.partLog level path name part).diagnostics =
      (Unfolding.partTrace i name part).filterMap (Site.diagnosticAt path)
  | .block inner, level, path, i, name => by
    rw [Unfolding.partLog, Unfolding.partTrace, filterMap_under]
    exact diagnostics_log inner (level + 1) (path.child name)
  | .unevaluable, level, path, i, name => by
    simp [Unfolding.partLog, Unfolding.partTrace, Log.diagnostics, Event.diagnostic?,
      Site.diagnosticAt]
  | .bare, _, _, _, _ | .text _, _, _, _, _ | .literal _, _, _, _, _ | .reference _, _, _, _, _
  | .dropped, _, _, _, _ => by
    simp [Unfolding.partLog, Unfolding.partTrace, Log.diagnostics]

lemma diagnostics_childrenLog : ∀ (us : List Unfolding) (level : Nat) (path : Path) (key : String)
    (i : Nat), (Unfolding.childrenLog level (path.child key) i us).diagnostics =
      (Unfolding.childrenTrace key i us).filterMap (Site.diagnosticAt path)
  | [], level, path, key, i => by
    simp [Unfolding.childrenLog, Unfolding.childrenTrace, Log.diagnostics]
  | u :: rest, level, path, key, i => by
    have hu := diagnostics_log u level ((path.child key).index i)
    have hr := diagnostics_childrenLog rest level path key (i + 1)
    have hp : (path.child key).index i = path ++ [.key key, .index i] := by
      simp [Path.child, Path.index]
    rw [Unfolding.childrenLog, Unfolding.childrenTrace, diagnostics_append, hu, hr,
      List.filterMap_append, filterMap_under, hp]

end

lemma diagnostics_trace (u : Unfolding) :
    (u.log 0 []).diagnostics = u.trace.filterMap Site.diagnostic? := by
  rw [diagnostics_log]
  exact List.filterMap_congr fun s _ => diagnosticAt_nil s

end Log

namespace Element

mutual

def tags : Element → List String
  | ⟨name, attributes, none⟩ => name :: attributesTags attributes
  | ⟨name, attributes, some children⟩ =>
    name :: (attributesTags attributes ++ childrenTags children)

def attributesTags : List (String × Form Element) → List String
  | [] => []
  | (_, form) :: rest => formTags form ++ attributesTags rest

def formTags : Form Element → List String
  | .block inner => tags inner
  | _ => []

def childrenTags : List Element → List String
  | [] => []
  | child :: rest => tags child ++ childrenTags rest

end

end Element

section Tags

lemma filterMap_tag?_under (turn : Turn) (steps : Path) (trace : List Site) :
    (trace.map (Site.under turn steps)).filterMap Site.tag? = trace.filterMap Site.tag? := by
  rw [List.filterMap_map]
  rfl

mutual

lemma tags_trace : ∀ u : Unfolding,
    u.trace.filterMap Site.tag? = (u.visible.map Element.tags).getD []
  | .missing component => by
    simp [Unfolding.trace, Unfolding.visible, Site.tag?]
  | .tag name attributes key none => by
    have ha := tags_attributesTrace 0 attributes
    simp [Unfolding.trace, Unfolding.visible, Site.tag?, Element.tags, ha]
  | .tag name attributes key (some children) => by
    have ha := tags_attributesTrace 0 attributes
    have hc := tags_childrenTrace key 0 children
    simp [Unfolding.trace, Unfolding.visible, Site.tag?, Element.tags, ha, hc]

lemma tags_attributesTrace : ∀ (i : Nat) (parts : List (String × Part Unfolding)),
    (Unfolding.attributesTrace i parts).filterMap Site.tag? =
      Element.attributesTags (Unfolding.visibleAttributes parts)
  | i, [] => by
    simp [Unfolding.attributesTrace, Unfolding.visibleAttributes, Element.attributesTags]
  | i, (name, part) :: rest => by
    have hp := tags_partTrace i name part
    have hr := tags_attributesTrace (i + 1) rest
    rw [Unfolding.attributesTrace, List.filterMap_append, hp, hr, Unfolding.visibleAttributes]
    cases Unfolding.visiblePart name part <;> rfl

lemma tags_partTrace : ∀ (i : Nat) (name : String) (part : Part Unfolding),
    (Unfolding.partTrace i name part).filterMap Site.tag? =
      ((Unfolding.visiblePart name part).map Element.formTags).getD []
  | i, name, .block inner => by
    have hi := tags_trace inner
    rw [Unfolding.partTrace, filterMap_tag?_under, hi, Unfolding.visiblePart, Option.map_map]
    rfl
  | i, name, .bare => by
    rw [Unfolding.visiblePart]
    split <;> simp [Unfolding.partTrace, Element.formTags]
  | i, name, .text _ | i, name, .literal _ | i, name, .reference _ => by
    simp [Unfolding.partTrace, Unfolding.visiblePart, Element.formTags]
  | i, name, .unevaluable | i, name, .dropped => by
    simp [Unfolding.partTrace, Unfolding.visiblePart, Site.tag?]

lemma tags_childrenTrace : ∀ (key : String) (i : Nat) (us : List Unfolding),
    (Unfolding.childrenTrace key i us).filterMap Site.tag? =
      Element.childrenTags (Unfolding.visibleChildren us)
  | key, i, [] => by
    simp [Unfolding.childrenTrace, Unfolding.visibleChildren, Element.childrenTags]
  | key, i, u :: rest => by
    have hu := tags_trace u
    have hr := tags_childrenTrace key (i + 1) rest
    rw [Unfolding.childrenTrace, List.filterMap_append, filterMap_tag?_under, hu, hr,
      Unfolding.visibleChildren]
    cases u.visible <;> rfl

end

end Tags

end TreeMarkup.Markup
