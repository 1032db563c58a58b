import Mathlib.Data.List.Forall2
import TreeMarkup.Proofs.Markup.Diagnostics
import TreeMarkup.Proofs.Markup.Stability

namespace TreeMarkup.Markup

/-- The other node is this one without one child that is not registered, and that is not the only child:
the item `i` of the array of children at the path `array`. The route to the node whose child it is goes
through registered nodes and what they hold themselves, past all defaults. -/
inductive Pruned (target : Target) (i : Nat) (gone : Option String) :
    List Turn → Path → Node → Node → Prop
  | here {node child : Node} {before after : List Node} {found : String × Component} :
      resolved? target node = some found → node.children = some (before ++ child :: after) →
      before.length = i → before ++ after ≠ [] →
      resolved? target child = none → child.component = gone →
      Pruned target i gone [] [.key node.childrenKey] node
        { node with children := some (before ++ after) }
  | block {node sub other : Node} {before after : List Attribute} {a : String}
      {found : String × Component} {route : List Turn} {array : Path} :
      resolved? target node = some found → node.attributes = before ++ (a, .node sub) :: after →
      Pruned target i gone route array sub other →
      Pruned target i gone (.block before.length :: route) ([.key a] ++ array) node
        { node with attributes := before ++ (a, .node other) :: after }
  | child {node sub other : Node} {before after : List Node}
      {found : String × Component} {route : List Turn} {array : Path} :
      resolved? target node = some found → node.children = some (before ++ sub :: after) →
      Pruned target i gone route array sub other →
      Pruned target i gone (.child before.length :: route)
        ([.key node.childrenKey, .index before.length] ++ array) node
        { node with children := some (before ++ other :: after) }

inductive Lowered (i : Nat) (route : List Turn) (array : Path) : Site → Site → Prop
  | later {j : Nat} {more : List Turn} {rest : Path} {mark : Mark} : i ≤ j →
      Lowered i route array
        ⟨route ++ .child (j + 1) :: more, array ++ .index (j + 1) :: rest, mark⟩
        ⟨route ++ .child j :: more, array ++ .index j :: rest, mark⟩
  | apart {s : Site} : (∀ j more, i ≤ j → s.route ≠ route ++ .child (j + 1) :: more) →
      Lowered i route array s s

def Loses (i : Nat) (gone : Option String) (route : List Turn) (array : Path)
    (trace other : List Site) : Prop :=
  ∃ before after,
    trace = before ++ ⟨route ++ [.child i], array ++ [.index i], .unresolved gone⟩ :: after ∧
    List.Forall₂ (Lowered i route array) (before ++ after) other

section Traces

variable {i : Nat} {gone : Option String} {route : List Turn} {array : Path}

lemma Lowered.under {s t : Site} (h : Lowered i route array s t) (turn : Turn) (steps : Path) :
    Lowered i (turn :: route) (steps ++ array) (s.under turn steps) (t.under turn steps) := by
  cases h with
  | @later j more rest mark hj =>
    have hlater := @Lowered.later i (turn :: route) (steps ++ array) j more rest mark hj
    simpa only [Site.under, List.cons_append, List.append_assoc] using hlater
  | apart hs =>
    apply Lowered.apart
    intro j more hj he
    exact hs j more hj (List.cons.inj he).2

lemma lowered_of_other_turn {turn other : Turn} {s : Site} {more : List Turn}
    (hs : s.route = other :: more) (h : other ≠ turn) : Lowered i (turn :: route) array s s := by
  apply Lowered.apart
  intro j rest _ he
  exact h (List.cons.inj (hs.symm.trans he)).1

lemma Loses.around {trace other first last : List Site} (h : Loses i gone route array trace other)
    (hfirst : ∀ s ∈ first, Lowered i route array s s)
    (hlast : ∀ s ∈ last, Lowered i route array s s) :
    Loses i gone route array (first ++ (trace ++ last)) (first ++ (other ++ last)) := by
  obtain ⟨before, after, rfl, hother⟩ := h
  refine ⟨first ++ before, after ++ last, by simp, ?_⟩
  have happend := List.rel_append (List.forall₂_same.mpr hfirst)
    (List.rel_append hother (List.forall₂_same.mpr hlast))
  simpa only [List.append_assoc] using happend

lemma Loses.under {trace other : List Site} (h : Loses i gone route array trace other) (turn : Turn)
    (steps : Path) : Loses i gone (turn :: route) (steps ++ array)
      (trace.map (Site.under turn steps)) (other.map (Site.under turn steps)) := by
  obtain ⟨before, after, rfl, hother⟩ := h
  refine ⟨before.map (Site.under turn steps), after.map (Site.under turn steps), ?_, ?_⟩
  · simp [Site.under]
  · rw [← List.map_append, List.forall₂_map_left_iff, List.forall₂_map_right_iff]
    exact hother.imp fun _ _ hs => hs.under turn steps

lemma lowered_childrenTrace {key : String} {j : Nat} (hj : i ≤ j) (us : List Unfolding) :
    List.Forall₂ (Lowered i [] [.key key]) (Unfolding.childrenTrace key (j + 1) us)
      (Unfolding.childrenTrace key j us) := by
  induction us generalizing j with
  | nil =>
    rw [Unfolding.childrenTrace, Unfolding.childrenTrace]
    exact .nil
  | cons u rest ih =>
    rw [Unfolding.childrenTrace, Unfolding.childrenTrace]
    apply List.rel_append
    · rw [List.forall₂_map_left_iff, List.forall₂_map_right_iff]
      exact List.forall₂_same.mpr fun s _ => @Lowered.later i [] [.key key] j s.route s.path s.mark hj
    · exact ih (Nat.le_succ_of_le hj)

end Traces

section Unfoldings

variable {target : Target} {i : Nat} {gone : Option String} {route : List Turn} {array : Path}

lemma trace_at_child (name key : String) (parts : List (String × Part Unfolding))
    (us vs : List Unfolding) (w : Unfolding) :
    (Unfolding.tag name parts key (some (us ++ w :: vs))).trace =
      (⟨[], [], .tag name⟩ :: (Unfolding.attributesTrace 0 parts ++
        Unfolding.childrenTrace key 0 us)) ++
        (w.trace.map (Site.under (.child us.length) [.key key, .index us.length]) ++
          Unfolding.childrenTrace key (us.length + 1) vs) := by
  simp [Unfolding.trace, Unfolding.childrenTrace_append, Unfolding.childrenTrace]

lemma loses_here {name key : String} {parts : List (String × Part Unfolding)}
    (us vs : List Unfolding) :
    Loses us.length gone [] [.key key]
      (Unfolding.tag name parts key (some (us ++ .missing gone :: vs))).trace
      (Unfolding.tag name parts key (some (us ++ vs))).trace := by
  refine ⟨⟨[], [], .tag name⟩ :: (Unfolding.attributesTrace 0 parts ++
    Unfolding.childrenTrace key 0 us), Unfolding.childrenTrace key (us.length + 1) vs, ?_, ?_⟩
  · rw [trace_at_child]
    rfl
  have hsplit : (Unfolding.tag name parts key (some (us ++ vs))).trace =
      (⟨[], [], .tag name⟩ :: (Unfolding.attributesTrace 0 parts ++
        Unfolding.childrenTrace key 0 us)) ++ Unfolding.childrenTrace key us.length vs := by
    simp [Unfolding.trace, Unfolding.childrenTrace_append]
  rw [hsplit]
  refine List.rel_append (List.forall₂_same.mpr ?_) (lowered_childrenTrace (Nat.le_refl _) vs)
  intro s hs
  apply Lowered.apart
  rintro j more hj he
  rcases List.mem_cons.mp hs with rfl | hs
  · exact absurd he (by simp)
  rcases List.mem_append.mp hs with hs | hs
  · obtain ⟨k, rest, _, _, hr⟩ := route_attributesTrace hs
    exact absurd (hr.symm.trans he) (by simp)
  · obtain ⟨k, rest, _, hk, hr⟩ := route_childrenTrace hs
    obtain ⟨hturn, _⟩ := List.cons.inj (hr.symm.trans he)
    have hkj : k = j + 1 := Turn.child.inj hturn
    omega

lemma loses_block {name key a : String} {ps qs : List (String × Part Unfolding)} {u v : Unfolding}
    {us : Option (List Unfolding)} (h : Loses i gone route array u.trace v.trace) :
    Loses i gone (.block ps.length :: route) ([.key a] ++ array)
      (Unfolding.tag name (ps ++ (a, .block u) :: qs) key us).trace
      (Unfolding.tag name (ps ++ (a, .block v) :: qs) key us).trace := by
  have htrace (w : Unfolding) : (Unfolding.tag name (ps ++ (a, .block w) :: qs) key us).trace =
      (⟨[], [], .tag name⟩ :: Unfolding.attributesTrace 0 ps) ++
        (w.trace.map (Site.under (.block ps.length) [.key a]) ++
          (Unfolding.attributesTrace (ps.length + 1) qs ++
            (us.map (Unfolding.childrenTrace key 0)).getD [])) := by
    simp [Unfolding.trace_tag, Unfolding.attributesTrace_append, Unfolding.attributesTrace,
      Unfolding.partTrace]
  rw [htrace u, htrace v]
  refine (h.under (.block ps.length) [.key a]).around ?_ ?_
  · intro s hs
    rcases List.mem_cons.mp hs with rfl | hs
    · exact .apart fun j more _ he => absurd he (by simp)
    · obtain ⟨j, rest, _, hj, hr⟩ := route_attributesTrace hs
      exact lowered_of_other_turn hr fun he => absurd (Turn.block.inj he) (by omega)
  · intro s hs
    rcases List.mem_append.mp hs with hs | hs
    · obtain ⟨j, rest, hj, _, hr⟩ := route_attributesTrace hs
      exact lowered_of_other_turn hr fun he => absurd (Turn.block.inj he) (by omega)
    · cases us with
      | none => exact absurd hs (by simp)
      | some us =>
        obtain ⟨j, rest, _, _, hr⟩ := route_childrenTrace hs
        exact lowered_of_other_turn hr fun he => Turn.noConfusion he

lemma loses_child {name key : String} {parts : List (String × Part Unfolding)}
    {us vs : List Unfolding} {u v : Unfolding} (h : Loses i gone route array u.trace v.trace) :
    Loses i gone (.child us.length :: route) ([.key key, .index us.length] ++ array)
      (Unfolding.tag name parts key (some (us ++ u :: vs))).trace
      (Unfolding.tag name parts key (some (us ++ v :: vs))).trace := by
  rw [trace_at_child, trace_at_child]
  refine (h.under (.child us.length) [.key key, .index us.length]).around ?_ ?_
  · intro s hs
    rcases List.mem_cons.mp hs with rfl | hs
    · exact .apart fun j more _ he => absurd he (by simp)
    rcases List.mem_append.mp hs with hs | hs
    · obtain ⟨j, rest, _, _, hr⟩ := route_attributesTrace hs
      exact lowered_of_other_turn hr fun he => Turn.noConfusion he
    · obtain ⟨j, rest, _, hj, hr⟩ := route_childrenTrace hs
      exact lowered_of_other_turn hr fun he => absurd (Turn.child.inj he) (by omega)
  · intro s hs
    obtain ⟨j, rest, hj, _, hr⟩ := route_childrenTrace hs
    exact lowered_of_other_turn hr fun he => absurd (Turn.child.inj he) (by omega)

lemma mergedAttributes_replace {node : Node} {before after : List Attribute} {a : String}
    {value : AttributeValue Node} (h : node.attributes = before ++ (a, value) :: after)
    (defaults : Json.Members) : ∃ rest,
      node.mergedAttributes defaults = before ++ (a, value) :: rest ∧
      ∀ another, Node.mergedAttributes { node with attributes := before ++ (a, another) :: after }
        defaults = before ++ (a, another) :: rest := by
  refine ⟨after ++ (defaults.filter fun d => !Node.isReserved d.1 &&
    !(node.attributes.any fun b => b.1 == d.1)).map fun d => (d.1, Node.classify d.1 d.2), ?_, ?_⟩
  · rw [Node.mergedAttributes, ← List.cons_append, ← List.append_assoc, ← h]
  · intro another
    simp [Node.mergedAttributes, h]

lemma unfoldings_at {expand : Node → Option Unfolding} {node sub : Node} {before after : List Node}
    {us : Option (List Unfolding)} (hc : node.children = some (before ++ sub :: after))
    (hu : unfoldChildren expand node.childNodes = some us) : ∃ firsts u lasts,
      unfoldNodes expand before = some firsts ∧ expand sub = some u ∧
      unfoldNodes expand after = some lasts ∧ us = some (firsts ++ u :: lasts) := by
  have hmem : sub ∈ before ++ sub :: after := List.mem_append_right _ List.mem_cons_self
  obtain ⟨vs, rfl, hnodes⟩ := unfolded_of_child hu hc hmem
  obtain ⟨firsts, rest, hfirsts, hrest, rfl⟩ := unfoldNodes_append.mp hnodes
  obtain ⟨u, lasts, hsub, hlasts, rfl⟩ := unfoldNodes_cons hrest
  exact ⟨firsts, u, lasts, hfirsts, hsub, hlasts, rfl⟩

theorem Pruned.unfolds {node other : Node} (h : Pruned target i gone route array node other)
    {depth : Nat} {u : Unfolding} (hu : unfoldWithin target depth node = some u) :
    ∃ v, unfoldWithin target depth other = some v ∧ v.visible = u.visible ∧
      Loses i gone route array u.trace v.trace := by
  -- Along the route to the child, all that is around the nodes on it unfolds as before.
  induction h generalizing depth u with
  | @here node child before after found hr hc hi hne hm hg =>
    obtain ⟨more, parts, us, rfl, hp, hus, rfl⟩ := unfoldWithin_of_resolved hr hu
    obtain ⟨firsts, w, lasts, hfirsts, hw, hlasts, rfl⟩ := unfoldings_at hc hus
    obtain rfl := unfoldWithin_of_unresolved hm hw
    have hwithout := unfoldNodes_append.mpr ⟨firsts, lasts, hfirsts, hlasts, rfl⟩
    refine ⟨_, unfoldWithin_tag hr hp (unfoldChildren_of_ne_nil rfl hne hwithout), ?_, ?_⟩
    · simp [Unfolding.visible, Unfolding.visibleChildren_append, Unfolding.visibleChildren]
    · rw [← hi, ← length_unfoldings hfirsts, ← hg]
      exact loses_here firsts lasts
  | @block node sub other before after a found route array hr ha _ ih =>
    obtain ⟨more, parts, us, rfl, hp, hus, rfl⟩ := unfoldWithin_of_resolved hr hu
    obtain ⟨rest, hmerged, hreplaced⟩ := mergedAttributes_replace ha found.2.defaults
    rw [hmerged] at hp
    obtain ⟨firsts, parts, hfirsts, hparts, rfl⟩ := unfoldAttributes_append.mp hp
    obtain ⟨part, lasts, hpart, hlasts, rfl⟩ := unfoldAttributes_cons hparts
    obtain ⟨u, hsub, rfl⟩ := Option.map_eq_some_iff.mp hpart
    obtain ⟨v, hv, hvisible, hloses⟩ := ih hsub
    have hothers : unfoldAttributes target (unfoldWithin target more) ((a, .node other) :: rest) =
        some ((a, .block v) :: lasts) := by
      simp [unfoldAttributes, partOf, hv, hlasts]
    have hwithout := unfoldAttributes_append.mpr ⟨firsts, _, hfirsts, hothers, rfl⟩
    refine ⟨_, unfoldWithin_tag hr ((congrArg _ (hreplaced _)).trans hwithout) hus, ?_, ?_⟩
    · simp [Unfolding.visible_tag, Unfolding.visibleAttributes_append, Unfolding.visibleAttributes,
        Unfolding.visiblePart, hvisible]
    · rw [← length_parts hfirsts]
      exact loses_block hloses
  | @child node sub other before after found route array hr hc _ ih =>
    obtain ⟨more, parts, us, rfl, hp, hus, rfl⟩ := unfoldWithin_of_resolved hr hu
    obtain ⟨firsts, u, lasts, hfirsts, hsub, hlasts, rfl⟩ := unfoldings_at hc hus
    obtain ⟨v, hv, hvisible, hloses⟩ := ih hsub
    have hothers : unfoldNodes (unfoldWithin target more) (other :: after) = some (v :: lasts) := by
      simp [unfoldNodes, hv, hlasts]
    have hwithout := unfoldNodes_append.mpr ⟨firsts, _, hfirsts, hothers, rfl⟩
    refine ⟨_, unfoldWithin_tag hr hp (unfoldChildren_of_ne_nil rfl (by simp) hwithout), ?_, ?_⟩
    · simp [Unfolding.visible, Unfolding.visibleChildren_append, Unfolding.visibleChildren, hvisible]
    · rw [← length_unfoldings hfirsts]
      exact loses_child hloses

end Unfoldings

/-- Without the child the markup is the same. Of the sites in their order the one of the child is gone,
those in later items of its array stand one item further up, and the others stay as they are. -/
theorem compile_pruned {target : Target} {i : Nat} {gone : Option String} {route : List Turn}
    {array : Path} {node other : Node} (h : Pruned target i gone route array node other)
    {compiled : Compiled} (hc : compile target node = some compiled) :
    ∃ without before after trace,
      compile target other = some without ∧ without.markup = compiled.markup ∧
      (∀ s, s ∈ before ++ ⟨route ++ [.child i], array ++ [.index i], .unresolved gone⟩ :: after ↔
        Marks target node s) ∧
      (before ++ ⟨route ++ [.child i], array ++ [.index i], .unresolved gone⟩ :: after).Pairwise
        Site.Earlier ∧
      compiled.diagnostics = before.filterMap Site.diagnostic? ++
        unresolved gone (array ++ [.index i]) :: after.filterMap Site.diagnostic? ∧
      List.Forall₂ (Lowered i route array) (before ++ after) trace ∧
      without.diagnostics = trace.filterMap Site.diagnostic? := by
  rw [compile_eq] at hc
  obtain ⟨u, hu, rfl⟩ := Option.map_eq_some_iff.mp hc
  obtain ⟨v, hv, hvisible, before, after, htrace, hlowered⟩ := h.unfolds hu
  have hmarks := traceMarks_unfoldWithin target _ node u hu
  have hsorted := sorted_trace u
  have hdiagnostics := diagnostics_trace u
  rw [htrace] at hsorted hdiagnostics
  refine ⟨_, before, after, v.trace, compile_of_unfoldWithin hv, ?_, fun s => htrace ▸ hmarks s,
    hsorted, ?_, hlowered, diagnostics_trace v⟩
  · simp only [Unfolding.markup, hvisible]
  · rw [hdiagnostics, List.filterMap_append]
    rfl

section Cupboard

def tray (items : List Json) : Json :=
  .object [("_", .string "Box"), ("$", .array ⟨items⟩)]

def cupboard (items : List Json) : Json :=
  .object [("_", .string "Box"), ("title", .string "a"), ("Lead", tray items), ("Bad", .null)]

def drawer : Json :=
  .object [("_", .string "Box"), ("Icon", .null), ("$", .array #[.object [("_", .string "None")]])]

def star : Json := .object [("_", .string "Star")]
def ghost : Json := .object [("_", .string "Ghost")]

lemma pruned_cupboard : Pruned panelTarget 1 (some "Ghost") [.block 1] [.key "Lead", .key "$"]
    (Node.ofJson (cupboard [star, ghost, drawer])) (Node.ofJson (cupboard [star, drawer])) := by
  have htray : Pruned panelTarget 1 (some "Ghost") [] [.key "$"]
      (Node.ofJson (tray [star, ghost, drawer])) (Node.ofJson (tray [star, drawer])) :=
    @Pruned.here panelTarget 1 (some "Ghost") (Node.ofJson (tray [star, ghost, drawer]))
      (Node.ofJson ghost) [Node.ofJson star] [Node.ofJson drawer] _ rfl rfl rfl
      (List.cons_ne_nil _ _) rfl rfl
  exact @Pruned.block panelTarget 1 (some "Ghost") (Node.ofJson (cupboard [star, ghost, drawer]))
    _ _ [("title", .string "a")] [("Bad", .unevaluable)] "Lead" _ [] [.key "$"] rfl rfl htray

def cupboardPaths : List (Option String) :=
  [some "Lead.$[1]", some "Lead.$[2]", some "Lead.$[2].$[0]", some ""]

def shorterCupboardPaths : List (Option String) :=
  [some "Lead.$[1]", some "Lead.$[1].$[0]", some ""]

lemma paths_cupboard :
    (compile panelTarget (Node.ofJson (cupboard [star, ghost, drawer]))).map
        (fun c => c.diagnostics.map (·.path)) = some cupboardPaths ∧
      (compile panelTarget (Node.ofJson (cupboard [star, drawer]))).map
        (fun c => c.diagnostics.map (·.path)) = some shorterCupboardPaths := by
  decide +kernel

end Cupboard

theorem compile_pruned_cupboard : Pruned panelTarget 1 (some "Ghost") [.block 1] [.key "Lead", .key "$"]
      (Node.ofJson (cupboard [star, ghost, drawer])) (Node.ofJson (cupboard [star, drawer])) ∧
    ∃ compiled without,
      compile panelTarget (Node.ofJson (cupboard [star, ghost, drawer])) = some compiled ∧
      compile panelTarget (Node.ofJson (cupboard [star, drawer])) = some without ∧
      without.markup = compiled.markup ∧
      unresolved (some "Ghost") [.key "Lead", .key "$", .index 1] ∈ compiled.diagnostics ∧
      compiled.diagnostics.map (·.path) = cupboardPaths ∧
      without.diagnostics.map (·.path) = shorterCupboardPaths := by
  obtain ⟨hwith, hwithout⟩ := paths_cupboard
  obtain ⟨compiled, hc, hpaths⟩ := Option.map_eq_some_iff.mp hwith
  obtain ⟨other, ho, hother⟩ := Option.map_eq_some_iff.mp hwithout
  obtain ⟨without, before, after, trace, hw, hmarkup, _, _, hdiagnostics, _, _⟩ :=
    compile_pruned pruned_cupboard hc
  obtain rfl := Option.some.inj (hw.symm.trans ho)
  refine ⟨pruned_cupboard, compiled, without, hc, hw, hmarkup, ?_, hpaths, hother⟩
  rw [hdiagnostics]
  exact List.mem_append_right _ List.mem_cons_self

end TreeMarkup.Markup
