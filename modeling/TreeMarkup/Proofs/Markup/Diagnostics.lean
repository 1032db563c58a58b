import Mathlib.Data.List.Nodup
import TreeMarkup.Proofs.Markup.Legible
import TreeMarkup.Proofs.Markup.Trace

namespace TreeMarkup.Markup

/-- The value should stand for a component, but none is registered under its name or it is no name. -/
def Unformed (target : Target) : AttributeValue Node → Prop
  | .reference component => NameMap.contains target.registry component = false
  | .unevaluable => True
  | _ => False

inductive Leaves (target : Target) (n : Node) : List Turn → Mark → Prop
  | tag {name : String} {component : Component} :
      resolved? target n = some (name, component) → Leaves target n [] (.tag name)
  | unresolved : resolved? target n = none → Leaves target n [] (.unresolved n.component)
  | unevaluable {name : String} {component : Component} {i : Nat} {key : String}
      {value : AttributeValue Node} :
      resolved? target n = some (name, component) →
      (n.mergedAttributes component.defaults)[i]? = some (key, value) → Unformed target value →
      Leaves target n [.block i] (.unevaluable key)

def Marks (target : Target) (node : Node) (s : Site) : Prop :=
  ∃ route path n more, Reached target node route path n ∧ Leaves target n more s.mark ∧
    s.route = route ++ more ∧ s.path = path

section Places

variable {target : Target} {expand : Node → Option Unfolding}

lemma getElem?_parts {attributes : List Attribute} {parts : List (String × Part Unfolding)}
    (hp : unfoldAttributes target expand attributes = some parts) {j : Nat} {key : String}
    {part : Part Unfolding} : parts[j]? = some (key, part) ↔
      ∃ value, attributes[j]? = some (key, value) ∧ partOf target expand value = some part := by
  induction attributes generalizing parts j with
  | nil =>
    obtain rfl := Option.some.inj hp
    simp
  | cons a rest ih =>
    obtain ⟨name, value⟩ := a
    obtain ⟨first, more, hv, hm, rfl⟩ := unfoldAttributes_cons hp
    cases j with
    | zero =>
      simp only [List.getElem?_cons_zero, Option.some.injEq, Prod.mk.injEq]
      constructor
      · rintro ⟨rfl, rfl⟩
        exact ⟨value, ⟨rfl, rfl⟩, hv⟩
      · rintro ⟨other, ⟨rfl, rfl⟩, ho⟩
        exact ⟨rfl, Option.some.inj (hv.symm.trans ho)⟩
    | succ j => simpa using ih hm

lemma getElem?_unfoldings {nodes : List Node} {us : List Unfolding}
    (hu : unfoldNodes expand nodes = some us) {j : Nat} {u : Unfolding} : us[j]? = some u ↔
      ∃ sub, nodes[j]? = some sub ∧ expand sub = some u := by
  induction nodes generalizing us j with
  | nil =>
    obtain rfl := Option.some.inj hu
    simp
  | cons node rest ih =>
    obtain ⟨first, more, hn, hm, rfl⟩ := unfoldNodes_cons hu
    cases j with
    | zero =>
      simp only [List.getElem?_cons_zero, Option.some.injEq, exists_eq_left']
      rw [hn, Option.some.injEq]
    | succ j => simpa using ih hm

lemma mem_attributesTrace {i : Nat} {parts : List (String × Part Unfolding)} {s : Site} :
    s ∈ Unfolding.attributesTrace i parts ↔ ∃ j key part, parts[j]? = some (key, part) ∧
      s ∈ Unfolding.partTrace (i + j) key part := by
  induction parts generalizing i with
  | nil => simp [Unfolding.attributesTrace]
  | cons p rest ih =>
    obtain ⟨name, first⟩ := p
    rw [Unfolding.attributesTrace, List.mem_append, ih]
    constructor
    · rintro (h | ⟨j, key, part, hj, hs⟩)
      · exact ⟨0, name, first, rfl, h⟩
      · refine ⟨j + 1, key, part, hj, ?_⟩
        rwa [show i + (j + 1) = i + 1 + j by omega]
    · rintro ⟨j, key, part, hj, hs⟩
      cases j with
      | zero =>
        obtain ⟨rfl, rfl⟩ := Prod.mk.inj (Option.some.inj hj)
        exact Or.inl hs
      | succ j =>
        refine Or.inr ⟨j, key, part, hj, ?_⟩
        rwa [show i + 1 + j = i + (j + 1) by omega]

lemma mem_childrenTrace {key : String} {i : Nat} {us : List Unfolding} {s : Site} :
    s ∈ Unfolding.childrenTrace key i us ↔ ∃ (j : Nat) (u : Unfolding), us[j]? = some u ∧
      ∃ t ∈ u.trace, t.under (.child (i + j)) [.key key, .index (i + j)] = s := by
  induction us generalizing i with
  | nil => simp [Unfolding.childrenTrace]
  | cons first rest ih =>
    rw [Unfolding.childrenTrace, List.mem_append, ih, List.mem_map]
    constructor
    · rintro (h | ⟨j, u, hj, hs⟩)
      · exact ⟨0, first, rfl, h⟩
      · refine ⟨j + 1, u, hj, ?_⟩
        rwa [show i + (j + 1) = i + 1 + j by omega]
    · rintro ⟨j, u, hj, hs⟩
      cases j with
      | zero =>
        obtain rfl := Option.some.inj hj
        exact Or.inl hs
      | succ j =>
        refine Or.inr ⟨j, u, hj, ?_⟩
        rwa [show i + 1 + j = i + (j + 1) by omega]

lemma mem_partTrace {i : Nat} {key : String} {value : AttributeValue Node} {part : Part Unfolding}
    (hp : partOf target expand value = some part) {s : Site} :
    s ∈ Unfolding.partTrace i key part ↔
      (Unformed target value ∧ s = ⟨[.block i], [], .unevaluable key⟩) ∨
      ∃ sub u, value = .node sub ∧ expand sub = some u ∧
        ∃ t ∈ u.trace, t.under (.block i) [.key key] = s := by
  cases value with
  | node sub =>
    obtain ⟨u, hu, rfl⟩ := Option.map_eq_some_iff.mp hp
    simp [Unfolding.partTrace, Unformed, hu]
  | reference component =>
    obtain rfl := Option.some.inj hp
    cases hc : NameMap.contains target.registry component <;>
      simp [Unfolding.partTrace, Unformed, hc]
  | boolean b =>
    cases b <;> (obtain rfl := Option.some.inj hp; simp [Unfolding.partTrace, Unformed])
  | _ =>
    obtain rfl := Option.some.inj hp
    simp [Unfolding.partTrace, Unformed]

end Places

section Marks

variable {target : Target} {node : Node}

lemma Marks.own {more : List Turn} {mark : Mark} (h : Leaves target node more mark) :
    Marks target node ⟨more, [], mark⟩ :=
  ⟨[], [], node, more, .root node, h, rfl, rfl⟩

lemma Marks.inside {turn : Turn} {steps : Path} {sub : Node} (hn : Nested target node turn steps sub)
    {s : Site} (h : Marks target sub s) : Marks target node (s.under turn steps) := by
  obtain ⟨route, path, n, more, hr, hl, hroute, hpath⟩ := h
  refine ⟨turn :: route, steps ++ path, n, more, .inside hn hr, hl, ?_, ?_⟩
  · rw [Site.under, hroute, List.cons_append]
  · rw [Site.under, hpath]

lemma marks_cases {s : Site} (h : Marks target node s) :
    (Leaves target node s.route s.mark ∧ s.path = []) ∨
      ∃ turn steps sub t, Nested target node turn steps sub ∧ Marks target sub t ∧
        s = t.under turn steps := by
  obtain ⟨route, path, n, more, hr, hl, hroute, hpath⟩ := h
  cases hr with
  | root =>
    rw [hroute]
    exact Or.inl ⟨hl, hpath⟩
  | @inside _ sub n turn steps route path hn hr =>
    refine Or.inr ⟨turn, steps, sub, ⟨route ++ more, path, s.mark⟩, hn,
      ⟨route, path, n, more, hr, hl, rfl, rfl⟩, ?_⟩
    obtain ⟨sroute, spath, smark⟩ := s
    obtain rfl : sroute = turn :: (route ++ more) := hroute
    obtain rfl : spath = steps ++ path := hpath
    rfl

end Marks

section Membership

variable {target : Target} {expand : Node → Option Unfolding}

def TraceMarks (target : Target) (expand : Node → Option Unfolding) : Prop :=
  ∀ node u, expand node = some u → ∀ s, s ∈ u.trace ↔ Marks target node s

variable (h : TraceMarks target expand) {node : Node} {name : String} {component : Component}
  (hr : resolved? target node = some (name, component)) {s : Site}

include h hr

lemma marks_of_attributesTrace {parts : List (String × Part Unfolding)}
    (hp : unfoldAttributes target expand (node.mergedAttributes component.defaults) = some parts)
    (hs : s ∈ Unfolding.attributesTrace 0 parts) : Marks target node s := by
  obtain ⟨j, key, part, hj, hs⟩ := mem_attributesTrace.mp hs
  obtain ⟨value, ha, hv⟩ := (getElem?_parts hp).mp hj
  rw [Nat.zero_add] at hs
  rcases (mem_partTrace hv).mp hs with ⟨hu, rfl⟩ | ⟨sub, u, rfl, hu, t, ht, rfl⟩
  · exact .own (.unevaluable hr ha hu)
  · exact ((h sub u hu t).mp ht).inside (.block hr ha)

lemma marks_of_childrenTrace {nodes : List Node} (hn : node.children = some nodes)
    {us : List Unfolding} (hu : unfoldNodes expand nodes = some us)
    (hs : s ∈ Unfolding.childrenTrace node.childrenKey 0 us) : Marks target node s := by
  obtain ⟨j, u, hj, t, ht, rfl⟩ := mem_childrenTrace.mp hs
  obtain ⟨sub, hsub, hv⟩ := (getElem?_unfoldings hu).mp hj
  rw [Nat.zero_add]
  exact ((h sub u hv t).mp ht).inside (.child hr hn hsub)

omit h hr in
lemma mem_attributesTrace_of_unformed {attributes : List Attribute}
    {parts : List (String × Part Unfolding)}
    (hp : unfoldAttributes target expand attributes = some parts) {i : Nat} {key : String}
    {value : AttributeValue Node} (ha : attributes[i]? = some (key, value))
    (hv : Unformed target value) :
    ⟨[.block i], [], .unevaluable key⟩ ∈ Unfolding.attributesTrace 0 parts := by
  have hpart : partOf target expand value = some .unevaluable := by
    cases value with
    | reference component => simp [partOf, show NameMap.contains _ component = false from hv]
    | unevaluable => rfl
    | _ => exact absurd hv (by simp [Unformed])
  refine mem_attributesTrace.mpr ⟨i, key, .unevaluable, (getElem?_parts hp).mpr ⟨value, ha, hpart⟩, ?_⟩
  rw [Nat.zero_add]
  exact (mem_partTrace hpart).mpr (Or.inl ⟨hv, rfl⟩)

omit hr in
lemma mem_attributesTrace_of_block {attributes : List Attribute}
    {parts : List (String × Part Unfolding)}
    (hp : unfoldAttributes target expand attributes = some parts) {i : Nat} {key : String}
    {sub : Node} (ha : attributes[i]? = some (key, .node sub)) (hs : Marks target sub s) :
    s.under (.block i) [.key key] ∈ Unfolding.attributesTrace 0 parts := by
  cases hu : expand sub with
  | none =>
    have hn : unfoldAttributes target expand attributes = none :=
      unfoldAttributes_eq_none.mpr ⟨key, sub, List.mem_of_getElem? ha, hu⟩
    exact absurd (hn.symm.trans hp) (by simp)
  | some u =>
    have hpart : partOf target expand (.node sub) = some (.block u) := by simp [partOf, hu]
    refine mem_attributesTrace.mpr
      ⟨i, key, .block u, (getElem?_parts hp).mpr ⟨.node sub, ha, hpart⟩, ?_⟩
    rw [Nat.zero_add]
    exact (mem_partTrace hpart).mpr (Or.inr ⟨sub, u, rfl, hu, s, (h sub u hu s).mpr hs, rfl⟩)

omit hr in
lemma mem_childrenTrace_of_child {nodes : List Node} {us : List Unfolding}
    (hu : unfoldNodes expand nodes = some us) {i : Nat} {sub : Node} (hn : nodes[i]? = some sub)
    (hs : Marks target sub s) (key : String) :
    s.under (.child i) [.key key, .index i] ∈ Unfolding.childrenTrace key 0 us := by
  cases hv : expand sub with
  | none =>
    have he := unfoldNodes_eq_none.mpr ⟨sub, List.mem_of_getElem? hn, hv⟩
    exact absurd (he.symm.trans hu) (by simp)
  | some u =>
    refine mem_childrenTrace.mpr ⟨i, u, (getElem?_unfoldings hu).mpr ⟨sub, hn, hv⟩, s,
      (h sub u hv s).mpr hs, ?_⟩
    rw [Nat.zero_add]

end Membership

lemma mem_trace_tag {name key : String} {parts : List (String × Part Unfolding)}
    {us : Option (List Unfolding)} {s : Site} :
    s ∈ (Unfolding.tag name parts key us).trace ↔ s = ⟨[], [], .tag name⟩ ∨
      s ∈ Unfolding.attributesTrace 0 parts ∨
      ∃ vs, us = some vs ∧ s ∈ Unfolding.childrenTrace key 0 vs := by
  cases us <;> simp [Unfolding.trace]

theorem traceMarks_unfoldWithin (target : Target) (depth : Nat) :
    TraceMarks target (unfoldWithin target depth) := by
  induction depth with
  | zero =>
    intro node u hu
    exact absurd hu (by simp [unfoldWithin])
  | succ depth ih =>
    intro node u hu s
    rcases unfoldWithin_cases hu with
      ⟨hr, rfl⟩ | ⟨name, component, parts, us, hr, hp, hc, rfl⟩
    · rw [Unfolding.trace, List.mem_singleton]
      constructor
      · rintro rfl
        exact .own (.unresolved hr)
      · intro hm
        rcases marks_cases hm with ⟨hl, hpath⟩ | ⟨turn, steps, sub, t, hn, _, _⟩
        · obtain ⟨route, path, mark⟩ := s
          obtain rfl : path = [] := hpath
          cases hl with
          | tag ht => simp [hr] at ht
          | unresolved => rfl
          | unevaluable ht => simp [hr] at ht
        · exact absurd ⟨turn, steps, hn⟩ (not_nests hr sub)
    · rw [mem_trace_tag]
      constructor
      · rintro (rfl | hs | ⟨vs, rfl, hs⟩)
        · exact .own (.tag hr)
        · exact marks_of_attributesTrace ih hr hp hs
        · obtain ⟨nodes, hn, hv⟩ := children_of_unfolded hc
          exact marks_of_childrenTrace ih hr hn hv hs
      · intro hm
        rcases marks_cases hm with ⟨hl, hpath⟩ | ⟨turn, steps, sub, t, hn, ht, rfl⟩
        · obtain ⟨route, path, mark⟩ := s
          obtain rfl : path = [] := hpath
          cases hl with
          | tag ht =>
            obtain ⟨rfl, rfl⟩ := resolved_unique hr ht
            exact Or.inl rfl
          | unresolved hn => simp [hr] at hn
          | unevaluable ht ha hv =>
            obtain ⟨rfl, rfl⟩ := resolved_unique hr ht
            exact Or.inr (Or.inl (mem_attributesTrace_of_unformed hp ha hv))
        · cases hn with
          | block hb ha =>
            obtain ⟨rfl, rfl⟩ := resolved_unique hr hb
            exact Or.inr (Or.inl (mem_attributesTrace_of_block ih hp ha ht))
          | child _ hk hi =>
            obtain ⟨vs, rfl, hv⟩ := unfolded_of_child hc hk (List.mem_of_getElem? hi)
            exact Or.inr (Or.inr ⟨vs, rfl, mem_childrenTrace_of_child ih hv hi ht _⟩)

section Order

lemma Turn.before_irrefl (turn : Turn) : ¬turn.Before turn := by
  cases turn <;> exact Nat.lt_irrefl _

lemma route_ne_of_earlier {s t : Site} (h : s.Earlier t) : s.route ≠ t.route := by
  have hlex : ∀ {route more : List Turn}, List.Lex Turn.Before route more → route ≠ more := by
    intro route more hl
    induction hl with
    | nil => simp
    | rel hb =>
      intro he
      rw [(List.cons.inj he).1] at hb
      exact Turn.before_irrefl _ hb
    | cons _ ih =>
      intro he
      exact ih (List.cons.inj he).2
  exact hlex h

lemma eq_of_route_eq {trace : List Site} (h : trace.Pairwise Site.Earlier) {s t : Site}
    (hs : s ∈ trace) (ht : t ∈ trace) (he : s.route = t.route) : s = t := by
  have hroutes : (trace.map Site.route).Nodup := by
    rw [List.nodup_iff_pairwise_ne, List.pairwise_map]
    exact h.imp route_ne_of_earlier
  exact List.inj_on_of_nodup_map hroutes hs ht he

end Order

section Exactness

variable (target : Target)

def ownMark (n : Node) : Mark :=
  match resolved? target n with
  | some (name, _) => .tag name
  | none => .unresolved n.component

variable {target}

lemma leaves_ownMark (n : Node) : Leaves target n [] (ownMark target n) := by
  cases hr : resolved? target n with
  | none =>
    simp only [ownMark, hr]
    exact .unresolved hr
  | some found =>
    obtain ⟨name, component⟩ := found
    simp only [ownMark, hr]
    exact .tag hr

lemma marks_ownMark {node n : Node} {route : List Turn} {path : Path}
    (h : Reached target node route path n) : Marks target node ⟨route, path, ownMark target n⟩ :=
  ⟨route, path, n, [], h, leaves_ownMark n, (List.append_nil route).symm, rfl⟩

lemma unformed_classify (key : String) (value : Json) :
    Unformed target (Node.classify key value) ↔ Node.isComponentName key = true ∧
      (∀ name, value = .string name → NameMap.contains target.registry name = false) ∧
      ∀ members, value ≠ .object members := by
  cases hk : Node.isComponentName key with
  | false => cases value with
    | bool b => cases b <;> simp [Node.classify, hk, Node.plainValue, Unformed]
    | _ => simp [Node.classify, hk, Node.plainValue, Unformed]
  | true => cases value <;> simp [Node.classify, hk, Node.componentValue, Unformed]

end Exactness

/-- The diagnostics are those of the sites that the nodes leave, in the order of the sites; the tags of
the markup are the others, so that each node leaves its tag or its diagnostic. When JSON describes the
node, every attribute that is come to has the value that its name gives to a raw one. -/
theorem diagnostics_eq_sites (target : Target) (node : Node) (compiled : Compiled)
    (hc : compile target node = some compiled) : ∃ trace : List Site,
    trace.Pairwise Site.Earlier ∧ (∀ s, s ∈ trace ↔ Marks target node s) ∧
    compiled.diagnostics = trace.filterMap Site.diagnostic? ∧
    (∃ v, Shows target node v ∧
      compiled.markup = (v.map fun e => layout target.options.indent (e.lines 0)).getD "" ∧
      (v.map Element.tags).getD [] = trace.filterMap Site.tag?) ∧
    (∀ route path n, Reached target node route path n →
      ⟨route, path, ownMark target n⟩ ∈ trace ∧
      ∀ s ∈ trace, s.route = route → s = ⟨route, path, ownMark target n⟩) ∧
    (Described node → ∀ route path n name component, Reached target node route path n →
      resolved? target n = some (name, component) →
      ∀ a ∈ n.mergedAttributes component.defaults, ∃ value, a.2 = Node.classify a.1 value) ∧
    ∀ key value, Unformed target (Node.classify key value) ↔ Node.isComponentName key = true ∧
      (∀ name, value = .string name → NameMap.contains target.registry name = false) ∧
      ∀ members, value ≠ .object members := by
  rw [compile_eq] at hc
  obtain ⟨u, hu, rfl⟩ := Option.map_eq_some_iff.mp hc
  have hmarks := traceMarks_unfoldWithin target _ node u hu
  have hdiagnostics : (u.log 0 []).diagnostics = u.trace.filterMap Site.diagnostic? := by
    rw [diagnostics_log]
    exact List.filterMap_congr fun s _ => diagnosticAt_nil s
  have hshows : Shows target node u.visible := (shows_iff target _ node u hu _).mpr rfl
  refine ⟨u.trace, sorted_trace u, hmarks, hdiagnostics, ⟨u.visible, hshows, rfl, (tags_trace u).symm⟩,
    ?_, ?_, unformed_classify⟩
  · intro route path n hr
    have hm := (hmarks _).mpr (marks_ownMark hr)
    exact ⟨hm, fun s hs he => eq_of_route_eq (sorted_trace u) hs hm he⟩
  · intro hd route path n name component hr _ a ha
    exact (hd.reached hr).attributes ha

def panelDiagnostics : List Diagnostic :=
  [⟨.warning, .unevaluableAttribute, "Unable to evaluate element prop `Bad`", some ""⟩,
    ⟨.warning, .unresolvedComponent, "Unable to find definition of `None`; ignored", some "$[1]"⟩,
    ⟨.warning, .unevaluableAttribute, "Unable to evaluate element prop `Icon`", some "$[2]"⟩,
    ⟨.warning, .unresolvedComponent, "Unable to find definition of `<none>`; ignored",
      some "$[2].$[0]"⟩]

lemma diagnostics_panel :
    (compile panelTarget (Node.ofJson panel)).map (·.diagnostics) = some panelDiagnostics := by
  decide +kernel

theorem diagnostics_eq_sites_panel : ∃ compiled,
    compile panelTarget (Node.ofJson panel) = some compiled ∧
    ∃ trace : List Site, trace.Pairwise Site.Earlier ∧
      (∀ s, s ∈ trace ↔ Marks panelTarget (Node.ofJson panel) s) ∧
      panelDiagnostics = trace.filterMap Site.diagnostic? := by
  obtain ⟨compiled, hc, hd⟩ := Option.map_eq_some_iff.mp diagnostics_panel
  obtain ⟨trace, hs, hm, ht, _⟩ :=
    diagnostics_eq_sites panelTarget (Node.ofJson panel) compiled hc
  rw [hd] at ht
  exact ⟨compiled, hc, trace, hs, hm, ht⟩

end TreeMarkup.Markup
