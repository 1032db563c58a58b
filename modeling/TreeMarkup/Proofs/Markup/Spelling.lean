import TreeMarkup.Proofs.Markup.Diagnostics
import TreeMarkup.Proofs.Markup.Merging
import TreeMarkup.Proofs.Markup.Stability

/-! The short and the long spelling of the reserved names mean the same. Which one a node is written
with shows only in the paths of what is reported inside its children. -/

namespace TreeMarkup.Markup

def longKey (name : String) : String :=
  if name = "_" then "component" else if name = "$" then "children" else name

mutual

def longForm : Json → Json
  | .object members => .object (longMembers members)
  | value => value

def longMembers : List (String × Json) → List (String × Json)
  | [] => []
  | (name, value) :: rest => (longKey name, longValue name value) :: longMembers rest

def longValue (name : String) : Json → Json
  | .object members =>
    if Node.isComponentName name then .object (longMembers members) else .object members
  | .array ⟨items⟩ =>
    if Node.childrenKeys.contains name then .array ⟨longItems items⟩ else .array ⟨items⟩
  | value => value

def longItems : List Json → List Json
  | [] => []
  | item :: rest => longForm item :: longItems rest

end

inductive NodeObject : Json → Json.Members → Prop
  | self (members : Json.Members) : NodeObject (.object members) members
  | item {members inner : Json.Members} {key : String} {items : Array Json} {item : Json} :
      key ∈ Node.childrenKeys → (key, .array items) ∈ members → item ∈ items →
      NodeObject item inner → NodeObject (.object members) inner
  | held {members inner : Json.Members} {name : String} {value : Json} :
      Node.isComponentName name = true → (name, value) ∈ members → NodeObject value inner →
      NodeObject (.object members) inner

def SpeltOnce (value : Json) : Prop :=
  ∀ members, NodeObject value members →
    ¬("_" ∈ Fields.names members ∧ "component" ∈ Fields.names members) ∧
    ¬("$" ∈ Fields.names members ∧ "children" ∈ Fields.names members)

def longStep : Step → Step
  | .key name => .key (longKey name)
  | .index i => .index i

/-- The path with the long names as far as it follows the value. From where it leaves the value, into
what a default holds, it stays as it is. -/
def longPath : Json → Path → Path
  | _, [] => []
  | value, step :: rest =>
    match Json.child? step value with
    | none => step :: rest
    | some inner => longStep step :: longPath inner rest

def Site.respelled (value : Json) (s : Site) : Site :=
  { s with path := longPath value s.path }

section Keys

lemma longMembers_eq_map (members : List (String × Json)) :
    longMembers members = members.map fun m => (longKey m.1, longValue m.1 m.2) := by
  induction members with
  | nil => simp [longMembers]
  | cons m rest ih => rw [longMembers, ih, List.map_cons]

lemma longItems_eq_map (items : List Json) : longItems items = items.map longForm := by
  induction items with
  | nil => simp [longItems]
  | cons item rest ih => rw [longItems, ih, List.map_cons]

lemma longKey_of_not_isReserved {name : String} (h : Node.isReserved name = false) :
    longKey name = name := by
  have hc : name ≠ "_" := by rintro rfl; exact absurd h (by decide)
  have hk : name ≠ "$" := by rintro rfl; exact absurd h (by decide)
  rw [longKey, if_neg hc, if_neg hk]

lemma isReserved_longKey (name : String) :
    Node.isReserved (longKey name) = Node.isReserved name := by
  rw [longKey]
  split
  · next h => subst h; decide
  · split
    · next h => subst h; decide
    · rfl

lemma longKey_eq_component {name : String} :
    longKey name = "component" ↔ name = "_" ∨ name = "component" := by
  grind [longKey]

lemma longKey_eq_children {name : String} :
    longKey name = "children" ↔ name = "$" ∨ name = "children" := by
  grind [longKey]

lemma longKey_ne_short (name : String) : longKey name ≠ "_" ∧ longKey name ≠ "$" := by
  grind [longKey]

end Keys

section Members

variable {members : Json.Members}

lemma get?_longMembers_of_short {short : String} (h : ∀ name, longKey name ≠ short) :
    Fields.get? (longMembers members) short = none := by
  induction members with
  | nil => rfl
  | cons m rest ih => rw [longMembers, Fields.get?_cons, if_neg (h m.1), ih]

lemma get?_longMembers_of_long {short long : String}
    (hkey : ∀ name, longKey name = long ↔ name = short ∨ name = long)
    (honce : ¬(short ∈ Fields.names members ∧ long ∈ Fields.names members)) :
    Fields.get? (longMembers members) long =
      ((Fields.get? members short).map (longValue short)).or
        ((Fields.get? members long).map (longValue long)) := by
  induction members with
  | nil => rfl
  | cons m rest ih =>
    obtain ⟨name, value⟩ := m
    have hrest := ih fun h => honce ⟨List.mem_cons_of_mem _ h.1, List.mem_cons_of_mem _ h.2⟩
    rw [longMembers, Fields.get?_cons, Fields.get?_cons, Fields.get?_cons, hrest]
    by_cases hs : name = short
    · subst hs
      simp [(hkey name).mpr (Or.inl rfl)]
    by_cases hl : name = long
    · subst hl
      have hfree : Fields.get? rest short = none := by
        cases hg : Fields.get? rest short with
        | none => rfl
        | some v =>
          have hn : short ∈ Fields.names rest := Fields.mem_names_of_get? hg
          exact absurd ⟨List.mem_cons_of_mem _ hn, List.mem_cons_self⟩ honce
      simp [hs, hfree, (hkey name).mpr (Or.inr rfl)]
    · have hn : longKey name ≠ long := fun h => ((hkey name).mp h).elim hs hl
      simp [hs, hl, hn]

lemma string?_longValue (name : String) (value : Json) :
    (longValue name value).string? = value.string? := by
  cases value with
  | object members =>
    rw [longValue]
    split <;> rfl
  | array items =>
    rw [longValue]
    split <;> rfl
  | _ => rw [longValue] <;> simp

lemma componentOf_eq (members : Json.Members) : Node.componentOf members =
    ((Fields.get? members "_").or (Fields.get? members "component")).bind Json.string? := by
  rw [Node.componentOf, Node.firstOf, Node.componentKeys]
  cases hs : Fields.get? members "_" with
  | some value => simp [hs]
  | none => cases hl : Fields.get? members "component" <;> simp [hs, hl]

lemma componentOf_longMembers
    (honce : ¬("_" ∈ Fields.names members ∧ "component" ∈ Fields.names members)) :
    Node.componentOf (longMembers members) = Node.componentOf members := by
  have hshort : Fields.get? (longMembers members) "_" = none :=
    get?_longMembers_of_short fun name => (longKey_ne_short name).1
  have hlong := get?_longMembers_of_long (fun _ => longKey_eq_component) honce
  rw [componentOf_eq, componentOf_eq, hshort, hlong, Option.none_or]
  cases Fields.get? members "_" with
  | some value => simp [string?_longValue]
  | none => cases Fields.get? members "component" <;> simp [string?_longValue]

lemma childrenKeyOf_longMembers (members : Json.Members) :
    Node.childrenKeyOf (longMembers members) = "children" := by
  have hshort : Fields.get? (longMembers members) "$" = none :=
    get?_longMembers_of_short fun name => (longKey_ne_short name).2
  rw [Node.childrenKeyOf, Node.firstOf, Node.childrenKeys]
  cases hl : Fields.get? (longMembers members) "children" <;> simp [hshort, hl]

lemma get?_longMembers_children
    (honce : ¬("$" ∈ Fields.names members ∧ "children" ∈ Fields.names members)) :
    Fields.get? (longMembers members) "children" =
      (Fields.get? members (Node.childrenKeyOf members)).map
        (longValue (Node.childrenKeyOf members)) := by
  rw [get?_longMembers_of_long (fun _ => longKey_eq_children) honce, Node.childrenKeyOf, Node.firstOf,
    Node.childrenKeys]
  cases hs : Fields.get? members "$" with
  | some value => simp [hs]
  | none => cases hl : Fields.get? members "children" <;> simp [hs, hl]

lemma childNodes_longMembers
    (honce : ¬("$" ∈ Fields.names members ∧ "children" ∈ Fields.names members)) :
    ((Node.ofMembers members).childNodes = none ∧
        (Node.ofMembers (longMembers members)).childNodes = none) ∨
      ∃ items, Fields.get? members (Node.childrenKeyOf members) = some (.array ⟨items⟩) ∧
        (Node.ofMembers members).childNodes = some (items.map Node.ofJson) ∧
        (Node.ofMembers (longMembers members)).childNodes =
          some ((items.map longForm).map Node.ofJson) := by
  have hshort : (Node.ofMembers members).children =
      (Fields.get? members (Node.childrenKeyOf members)).bind Node.nodes? := childrenAt_eq _ _
  have hlong : (Node.ofMembers (longMembers members)).children =
      (Fields.get? (longMembers members) "children").bind Node.nodes? := by
    rw [← childrenAt_eq, ← childrenKeyOf_longMembers members]
    rfl
  rw [get?_longMembers_children honce] at hlong
  rw [Node.childNodes, Node.childNodes, hshort, hlong]
  cases hg : Fields.get? members (Node.childrenKeyOf members) with
  | none => exact Or.inl ⟨rfl, rfl⟩
  | some value =>
    cases value with
    | array items =>
      obtain ⟨items⟩ := items
      cases items with
      | nil =>
        refine Or.inl ⟨rfl, ?_⟩
        simp [longValue, childrenKeyOf_mem, longItems, Node.nodes?, Node.ofItems, Option.filter]
      | cons first rest =>
        refine Or.inr ⟨first :: rest, rfl, ?_, ?_⟩
        · simp [Node.nodes?, ofItems_eq_map, Option.filter]
        · simp [longValue, childrenKeyOf_mem, Node.nodes?, ofItems_eq_map, longItems_eq_map,
            Option.filter]
    | object ms =>
      refine Or.inl ⟨rfl, ?_⟩
      rw [Option.map_some, longValue]
      split <;> rfl
    | _ => exact Or.inl ⟨rfl, by simp [longValue, Node.nodes?]⟩

lemma filter_longMembers (members : Json.Members) :
    (longMembers members).filter (fun m => !Node.isReserved m.1) =
      (members.filter fun m => !Node.isReserved m.1).map fun m => (m.1, longValue m.1 m.2) := by
  induction members with
  | nil => simp [longMembers]
  | cons m rest ih =>
    obtain ⟨name, value⟩ := m
    rw [longMembers, List.filter_cons, List.filter_cons, ih, isReserved_longKey]
    cases hr : Node.isReserved name with
    | true => simp
    | false => simp [longKey_of_not_isReserved hr]

lemma contains_longMembers {name : String} (hr : Node.isReserved name = false) :
    Fields.contains (longMembers members) name = Fields.contains members name := by
  rw [Bool.eq_iff_iff, Fields.contains_eq_true, Fields.contains_eq_true, Fields.names,
    longMembers_eq_map, List.map_map, Fields.names]
  constructor
  · intro h
    obtain ⟨m, hm, rfl⟩ := List.mem_map.mp h
    have hkey : longKey m.1 = m.1 :=
      longKey_of_not_isReserved ((isReserved_longKey m.1).symm.trans hr)
    exact List.mem_map.mpr ⟨m, hm, hkey.symm⟩
  · intro h
    obtain ⟨m, hm, rfl⟩ := List.mem_map.mp h
    exact List.mem_map.mpr ⟨m, hm, longKey_of_not_isReserved hr⟩

lemma mergedAttributes_longMembers (members defaults : Json.Members) : ∃ adopted : Json.Members,
    (∀ d ∈ adopted, Fields.get? members d.1 = none) ∧
    (Node.ofMembers members).mergedAttributes defaults =
      (members.filter fun m => !Node.isReserved m.1).map classified ++ adopted.map classified ∧
    (Node.ofMembers (longMembers members)).mergedAttributes defaults =
      ((members.filter fun m => !Node.isReserved m.1).map fun m =>
        (m.1, longValue m.1 m.2)).map classified ++ adopted.map classified := by
  refine ⟨defaults.filter fun d => !Node.isReserved d.1 && !Fields.contains members d.1, ?_,
    mergedAttributes_ofMembers members defaults, ?_⟩
  · intro d hd
    have hfree := (Bool.and_eq_true_iff.mp (List.mem_filter.mp hd).2).2
    rwa [Bool.not_eq_true', Fields.contains, Option.isSome_eq_false_iff,
      Option.isNone_iff_eq_none] at hfree
  · rw [mergedAttributes_ofMembers, filter_longMembers]
    congr 2
    apply List.filter_congr
    intro d _
    cases hr : Node.isReserved d.1 with
    | true => rfl
    | false => rw [contains_longMembers hr]

lemma classify_longValue (name : String) (value : Json) :
    (Node.isComponentName name = true ∧ Node.classify name value = .node (Node.ofJson value) ∧
        Node.classify name (longValue name value) = .node (Node.ofJson (longForm value))) ∨
      ((∀ sub, Node.classify name value ≠ .node sub) ∧
        Node.classify name (longValue name value) = Node.classify name value) := by
  cases value with
  | object members =>
    cases hc : Node.isComponentName name with
    | true =>
      refine Or.inl ⟨rfl, ?_, ?_⟩
      · simp [Node.classify, hc, Node.componentValue, Node.ofJson]
      · simp [Node.classify, hc, longValue, longForm, Node.componentValue, Node.ofJson]
    | false =>
      refine Or.inr ⟨?_, ?_⟩
      · simp [Node.classify, hc, Node.plainValue]
      · simp [longValue, hc]
  | array items =>
    refine Or.inr ⟨?_, ?_⟩
    · intro sub
      rw [Node.classify]
      split <;> simp [Node.componentValue, Node.plainValue]
    · rw [Node.classify, Node.classify, longValue]
      split <;> split <;> simp [Node.componentValue, Node.plainValue]
  | _ =>
    refine Or.inr ⟨?_, ?_⟩
    · intro sub
      rw [Node.classify]
      split <;> simp [Node.componentValue, Node.plainValue]
    · simp [longValue]

end Members

section Paths

lemma longPath_of_child {whole inner : Json} {step : Step} (h : Json.child? step whole = some inner)
    (rest : Path) : longPath whole (step :: rest) = longStep step :: longPath inner rest := by
  simp [longPath, h]

lemma longPath_of_free {whole : Json} {step : Step} (h : Json.child? step whole = none)
    (rest : Path) : longPath whole (step :: rest) = step :: rest := by
  simp [longPath, h]

lemma map_respelled_of_fixed {whole : Json} {trace : List Site}
    (h : ∀ s ∈ trace, s.respelled whole = s) : trace.map (Site.respelled whole) = trace :=
  (List.map_congr_left h).trans (List.map_id trace)

lemma respelled_of_path_nil {whole : Json} {s : Site} (h : s.path = []) : s.respelled whole = s := by
  obtain ⟨route, path, mark⟩ := s
  subst h
  rfl

end Paths

section Unfoldings

variable {target : Target} {expand : Node → Option Unfolding} {whole : Json}

structure Respelling (value : Json) (u v : Unfolding) : Prop where
  visible : v.visible = u.visible
  trace : v.trace = u.trace.map (Site.respelled value)

def Respells (expand : Node → Option Unfolding) (value : Json) : Prop :=
  ∀ u, expand (Node.ofJson value) = some u →
    ∃ v, expand (Node.ofJson (longForm value)) = some v ∧ Respelling value u v

lemma Respelling.under_member {name : String} {inner : Json} {u v : Unfolding}
    (h : Respelling inner u v) (hr : Node.isReserved name = false)
    (hchild : Json.child? (.key name) whole = some inner) (turn : Turn) :
    v.trace.map (Site.under turn [.key name]) =
      (u.trace.map (Site.under turn [.key name])).map (Site.respelled whole) := by
  rw [h.trace, List.map_map, List.map_map]
  apply List.map_congr_left
  intro s _
  simp [Site.respelled, Site.under, longPath_of_child hchild, longStep, longKey_of_not_isReserved hr]

lemma Respelling.under_item {key : String} {items inner : Json} {i : Nat} {u v : Unfolding}
    (h : Respelling inner u v) (hk : key ∈ Node.childrenKeys)
    (hchild : Json.child? (.key key) whole = some items)
    (hitem : Json.child? (.index i) items = some inner) (turn : Turn) :
    v.trace.map (Site.under turn [.key "children", .index i]) =
      (u.trace.map (Site.under turn [.key key, .index i])).map (Site.respelled whole) := by
  have hlong : longKey key = "children" := by
    rw [longKey_eq_children]
    simpa [Node.childrenKeys] using hk
  rw [h.trace, List.map_map, List.map_map]
  apply List.map_congr_left
  intro s _
  simp [Site.respelled, Site.under, longPath_of_child hchild, longPath_of_child hitem, longStep, hlong]

lemma respelled_default {adopted : Json.Members}
    (hfree : ∀ d ∈ adopted, Json.child? (.key d.1) whole = none)
    {parts : List (String × Part Unfolding)}
    (hp : unfoldAttributes target expand (adopted.map classified) = some parts) (i : Nat) :
    (Unfolding.attributesTrace i parts).map (Site.respelled whole) =
      Unfolding.attributesTrace i parts := by
  apply map_respelled_of_fixed
  intro s hs
  obtain ⟨j, key, part, hj, hs⟩ := mem_attributesTrace.mp hs
  obtain ⟨value, ha, hpart⟩ := (getElem?_parts hp).mp hj
  rcases (mem_partTrace hpart).mp hs with ⟨_, rfl⟩ | ⟨sub, u, _, _, t, _, rfl⟩
  · exact respelled_of_path_nil rfl
  · obtain ⟨d, hd, he⟩ := List.mem_map.mp (List.mem_of_getElem? ha)
    obtain ⟨rfl, _⟩ := Prod.mk.inj he
    simp [Site.respelled, Site.under, longPath_of_free (hfree d hd)]

lemma respelled_member {m : String × Json} (hr : Node.isReserved m.1 = false)
    (hchild : Json.child? (.key m.1) whole = some m.2)
    (hsub : Node.isComponentName m.1 = true → Respells expand m.2) {part : Part Unfolding}
    (hp : partOf target expand (Node.classify m.1 m.2) = some part) :
    ∃ other, partOf target expand (Node.classify m.1 (longValue m.1 m.2)) = some other ∧
      Unfolding.visiblePart m.1 other = Unfolding.visiblePart m.1 part ∧
      ∀ i, Unfolding.partTrace i m.1 other =
        (Unfolding.partTrace i m.1 part).map (Site.respelled whole) := by
  rcases classify_longValue m.1 m.2 with ⟨hc, hshort, hlong⟩ | ⟨hplain, hsame⟩
  · rw [hshort] at hp
    obtain ⟨u, hu, rfl⟩ := Option.map_eq_some_iff.mp hp
    obtain ⟨v, hv, hrespelling⟩ := hsub hc u hu
    refine ⟨.block v, ?_, ?_, fun i => ?_⟩
    · rw [hlong, partOf, hv, Option.map_some]
    · rw [Unfolding.visiblePart, Unfolding.visiblePart, hrespelling.visible]
    · rw [Unfolding.partTrace, Unfolding.partTrace]
      exact hrespelling.under_member hr hchild _
  · refine ⟨part, hsame ▸ hp, rfl, fun i => (map_respelled_of_fixed fun s hs => ?_).symm⟩
    rcases (mem_partTrace hp).mp hs with ⟨_, rfl⟩ | ⟨sub, _, he, _⟩
    · exact respelled_of_path_nil rfl
    · exact absurd he (hplain sub)

lemma respelled_members {ms : List (String × Json)}
    (hms : ∀ m ∈ ms, Node.isReserved m.1 = false ∧ Json.child? (.key m.1) whole = some m.2 ∧
      (Node.isComponentName m.1 = true → Respells expand m.2))
    {ps : List (String × Part Unfolding)}
    (hp : unfoldAttributes target expand (ms.map classified) = some ps) :
    ∃ qs, unfoldAttributes target expand
        ((ms.map fun m => (m.1, longValue m.1 m.2)).map classified) = some qs ∧
      Unfolding.visibleAttributes qs = Unfolding.visibleAttributes ps ∧
      ∀ i, Unfolding.attributesTrace i qs =
        (Unfolding.attributesTrace i ps).map (Site.respelled whole) := by
  induction ms generalizing ps with
  | nil =>
    obtain rfl := Option.some.inj hp
    exact ⟨[], rfl, rfl, fun i => by simp [Unfolding.attributesTrace]⟩
  | cons m rest ih =>
    obtain ⟨hr, hchild, hsub⟩ := hms m List.mem_cons_self
    obtain ⟨part, more, hpart, hmore, rfl⟩ := unfoldAttributes_cons hp
    obtain ⟨other, ho, hvisible, htrace⟩ := respelled_member hr hchild hsub hpart
    obtain ⟨others, hothers, hvisibles, htraces⟩ :=
      ih (fun n hn => hms n (List.mem_cons_of_mem _ hn)) hmore
    refine ⟨(m.1, other) :: others, ?_, ?_, fun i => ?_⟩
    · simp [unfoldAttributes, classified, ho, ← hothers]
    · rw [Unfolding.visibleAttributes, Unfolding.visibleAttributes, hvisible, hvisibles]
    · rw [Unfolding.attributesTrace, Unfolding.attributesTrace, List.map_append, htrace, htraces]

lemma respelled_items {key : String} {array : Json} (hk : key ∈ Node.childrenKeys)
    (hchild : Json.child? (.key key) whole = some array) {items : List Json} {i : Nat}
    (hitems : ∀ j item, items[j]? = some item →
      Json.child? (.index (i + j)) array = some item ∧ Respells expand item)
    {us : List Unfolding} (hu : unfoldNodes expand (items.map Node.ofJson) = some us) :
    ∃ vs, unfoldNodes expand ((items.map longForm).map Node.ofJson) = some vs ∧
      Unfolding.visibleChildren vs = Unfolding.visibleChildren us ∧
      Unfolding.childrenTrace "children" i vs =
        (Unfolding.childrenTrace key i us).map (Site.respelled whole) := by
  induction items generalizing i us with
  | nil =>
    obtain rfl := Option.some.inj hu
    exact ⟨[], rfl, rfl, by simp [Unfolding.childrenTrace]⟩
  | cons item rest ih =>
    obtain ⟨u, more, hn, hmore, rfl⟩ := unfoldNodes_cons hu
    obtain ⟨hitem, hrespells⟩ := hitems 0 item rfl
    obtain ⟨v, hv, hrespelling⟩ := hrespells u hn
    have htrace := hrespelling.under_item hk hchild hitem (.child i)
    rw [Nat.add_zero] at htrace
    have hrest : ∀ j next, rest[j]? = some next →
        Json.child? (.index (i + 1 + j)) array = some next ∧ Respells expand next := by
      intro j next hj
      rw [Nat.add_assoc, Nat.add_comm 1 j]
      exact hitems (j + 1) next hj
    obtain ⟨others, hothers, hvisibles, htraces⟩ := ih hrest hmore
    refine ⟨v :: others, ?_, ?_, ?_⟩
    · simp [unfoldNodes, hv, ← hothers]
    · rw [Unfolding.visibleChildren, Unfolding.visibleChildren, hrespelling.visible, hvisibles]
    · rw [Unfolding.childrenTrace, Unfolding.childrenTrace, List.map_append, htraces, htrace]

end Unfoldings

section Values

variable {target : Target} {members : Json.Members}

lemma SpeltOnce.held (h : SpeltOnce (.object members)) {name : String} {value : Json}
    (hc : Node.isComponentName name = true) (hm : (name, value) ∈ members) : SpeltOnce value :=
  fun inner hi => h inner (.held hc hm hi)

lemma SpeltOnce.item (h : SpeltOnce (.object members)) {key : String} {items : Array Json}
    (hk : key ∈ Node.childrenKeys) (hm : (key, .array items) ∈ members) {item : Json}
    (hi : item ∈ items) : SpeltOnce item :=
  fun inner hn => h inner (.item hk hm hi hn)

section Inside

variable {expand : Node → Option Unfolding}
  (hv : (Json.object members).Regular) (hs : SpeltOnce (.object members))
  (ih : ∀ value, value.Regular → SpeltOnce value → Respells expand value)

include hv hs ih

lemma respelled_attributes {defaults : Json.Members} {parts : List (String × Part Unfolding)}
    (hp : unfoldAttributes target expand ((Node.ofMembers members).mergedAttributes defaults) =
      some parts) :
    ∃ others, unfoldAttributes target expand
        ((Node.ofMembers (longMembers members)).mergedAttributes defaults) = some others ∧
      Unfolding.visibleAttributes others = Unfolding.visibleAttributes parts ∧
      Unfolding.attributesTrace 0 others =
        (Unfolding.attributesTrace 0 parts).map (Site.respelled (.object members)) := by
  obtain ⟨adopted, hfree, hshort, hlong⟩ := mergedAttributes_longMembers members defaults
  rw [hshort] at hp
  obtain ⟨ps, ds, hps, hds, rfl⟩ := unfoldAttributes_append.mp hp
  have hmembers : ∀ m ∈ members.filter fun m => !Node.isReserved m.1,
      Node.isReserved m.1 = false ∧ Json.child? (.key m.1) (.object members) = some m.2 ∧
        (Node.isComponentName m.1 = true → Respells expand m.2) := by
    intro m hm
    obtain ⟨hm, hr⟩ := List.mem_filter.mp hm
    refine ⟨by simpa using hr, Fields.get?_of_mem hv.1 hm, fun hc => ?_⟩
    exact ih m.2 (hv.members.2 m hm) (hs.held hc hm)
  obtain ⟨qs, hqs, hvisible, htrace⟩ := respelled_members hmembers hps
  have hlength : qs.length = ps.length := by
    rw [length_parts hqs, length_parts hps, List.length_map, List.length_map, List.length_map]
  -- The names of the defaults are not among the members, so that a path into one leaves the value at once.
  have hdefaults : (Unfolding.attributesTrace (0 + ps.length) ds).map
      (Site.respelled (.object members)) = Unfolding.attributesTrace (0 + ps.length) ds :=
    respelled_default hfree hds _
  refine ⟨qs ++ ds, ?_, ?_, ?_⟩
  · rw [hlong]
    exact unfoldAttributes_append.mpr ⟨qs, ds, hqs, hds, rfl⟩
  · rw [Unfolding.visibleAttributes_append, Unfolding.visibleAttributes_append, hvisible]
  · rw [Unfolding.attributesTrace_append, Unfolding.attributesTrace_append, List.map_append, htrace,
      hdefaults, hlength]

lemma respelled_children {us : Option (List Unfolding)}
    (hu : unfoldChildren expand (Node.ofMembers members).childNodes = some us) :
    ∃ others, unfoldChildren expand (Node.ofMembers (longMembers members)).childNodes = some others ∧
      others.map Unfolding.visibleChildren = us.map Unfolding.visibleChildren ∧
      (others.map (Unfolding.childrenTrace "children" 0)).getD [] =
        ((us.map (Unfolding.childrenTrace (Node.childrenKeyOf members) 0)).getD []).map
          (Site.respelled (.object members)) := by
  obtain ⟨_, honce⟩ := hs members (.self members)
  rcases childNodes_longMembers honce with ⟨hshort, hlong⟩ | ⟨items, hget, hshort, hlong⟩
  · rw [hshort] at hu
    obtain rfl := Option.some.inj hu
    exact ⟨none, by rw [hlong, unfoldChildren], rfl, rfl⟩
  · rw [hshort] at hu
    obtain ⟨us, hus, rfl⟩ := Option.map_eq_some_iff.mp hu
    have hmem := Fields.mem_of_get? hget
    have hchild : Json.child? (.key (Node.childrenKeyOf members)) (.object members) =
        some (.array ⟨items⟩) := hget
    have hitems : ∀ j item, items[j]? = some item →
        Json.child? (.index (0 + j)) (.array ⟨items⟩) = some item ∧ Respells expand item := by
      intro j item hj
      have hitem : item ∈ (⟨items⟩ : Array Json) := by
        simpa using List.mem_of_getElem? hj
      refine ⟨by simpa [Json.child?, Json.items] using hj, ih item ?_ ?_⟩
      · exact (hv.members.2 _ hmem).items item hitem
      · exact hs.item (childrenKeyOf_mem members) hmem hitem
    obtain ⟨vs, hvs, hvisible, htrace⟩ :=
      respelled_items (childrenKeyOf_mem members) hchild hitems hus
    refine ⟨some vs, ?_, congrArg some hvisible, htrace⟩
    rw [hlong, unfoldChildren, hvs, Option.map_some]

end Inside

lemma respells_object {depth : Nat} (hv : (Json.object members).Regular)
    (hs : SpeltOnce (.object members))
    (ih : ∀ value, value.Regular → SpeltOnce value → Respells (unfoldWithin target depth) value) :
    Respells (unfoldWithin target (depth + 1)) (.object members) := by
  intro u (hu : unfoldWithin target (depth + 1) (Node.ofMembers members) = some u)
  have hlong : Node.ofJson (longForm (.object members)) = Node.ofMembers (longMembers members) := by
    rw [longForm, Node.ofMembers]
  have hcomponent : (Node.ofMembers (longMembers members)).component =
      (Node.ofMembers members).component := componentOf_longMembers (hs members (.self members)).1
  have hresolved : resolved? target (Node.ofMembers (longMembers members)) =
      resolved? target (Node.ofMembers members) := by
    rw [resolved?, resolved?, hcomponent]
  have hkey : (Node.ofMembers (longMembers members)).childrenKey = "children" :=
    childrenKeyOf_longMembers members
  rw [hlong]
  rcases unfoldWithin_cases hu with ⟨hr, rfl⟩ | ⟨name, component, parts, us, hr, hp, hus, rfl⟩
  · refine ⟨_, unfoldWithin_missing (hresolved.trans hr) depth, rfl, ?_⟩
    rw [hcomponent]
    simp [Unfolding.trace, Site.respelled, longPath]
  · obtain ⟨others, ho, hattributes, htrace⟩ := respelled_attributes hv hs ih hp
    obtain ⟨vs, hvs, hchildren, htraces⟩ := respelled_children hv hs ih hus
    refine ⟨_, unfoldWithin_tag (hresolved.trans hr) ho hvs, ?_, ?_⟩
    · rw [Unfolding.visible_tag, Unfolding.visible_tag, hattributes, hchildren]
    · rw [hkey, Unfolding.trace_tag, Unfolding.trace_tag, List.map_cons, List.map_append, htrace,
        htraces]
      rfl

theorem respells_unfoldWithin (target : Target) (depth : Nat) (value : Json) (hv : value.Regular)
    (hs : SpeltOnce value) : Respells (unfoldWithin target depth) value := by
  induction depth generalizing value with
  | zero =>
    intro u hu
    exact absurd hu (by simp [unfoldWithin])
  | succ depth ih =>
    cases value with
    | object members => exact respells_object hv hs ih
    | _ =>
      intro u hu
      obtain rfl := unfoldWithin_of_unresolved rfl hu
      exact ⟨_, hu, rfl, rfl⟩

end Values

/-- Written with the long names a node compiles to the same markup. What is reported is the same, at the
paths with the long names as far as they follow the value. -/
theorem compile_longForm {target : Target} {value : Json} (hv : value.Regular) (hs : SpeltOnce value)
    {compiled : Compiled} (hc : compile target (Node.ofJson value) = some compiled) :
    ∃ (respelled : Compiled) (trace : List Site),
      compile target (Node.ofJson (longForm value)) = some respelled ∧
      respelled.markup = compiled.markup ∧
      trace.Pairwise Site.Earlier ∧ (∀ s, s ∈ trace ↔ Marks target (Node.ofJson value) s) ∧
      compiled.diagnostics = trace.filterMap Site.diagnostic? ∧
      respelled.diagnostics = (trace.map (Site.respelled value)).filterMap Site.diagnostic? := by
  rw [compile_eq] at hc
  obtain ⟨u, hu, rfl⟩ := Option.map_eq_some_iff.mp hc
  obtain ⟨v, hlong, hvisible, htrace⟩ := respells_unfoldWithin target _ value hv hs u hu
  refine ⟨_, u.trace, compile_of_unfoldWithin hlong, ?_, sorted_trace u,
    traceMarks_unfoldWithin target _ _ u hu, diagnostics_trace u, ?_⟩
  · simp only [Unfolding.markup, hvisible]
  · rw [← htrace, diagnostics_trace]

section Binder

lemma speltOnce_object {members : Json.Members} : SpeltOnce (.object members) ↔
    (¬("_" ∈ Fields.names members ∧ "component" ∈ Fields.names members) ∧
      ¬("$" ∈ Fields.names members ∧ "children" ∈ Fields.names members)) ∧
    ∀ m ∈ members, (Node.isComponentName m.1 = true → SpeltOnce m.2) ∧
      (m.1 ∈ Node.childrenKeys → ∀ item ∈ m.2.items, SpeltOnce item) := by
  constructor
  · intro h
    refine ⟨h members (.self members), fun m hm => ⟨fun hc => h.held hc hm, ?_⟩⟩
    obtain ⟨name, value⟩ := m
    intro hk item hi
    cases value with
    | array items => exact h.item hk hm hi
    | _ => simp [Json.items] at hi
  · rintro ⟨hown, hinside⟩ inner hn
    cases hn with
    | self => exact hown
    | item hk hm hi hn => exact (hinside _ hm).2 hk _ hi inner hn
    | held hc hm hn => exact (hinside _ hm).1 hc inner hn

def binderTarget : Target :=
  ⟨[("Box", .host "Box" [("Icon", .object [("_", .string "Star"),
      ("$", .array #[.object [("_", .string "Ghost")]])])]), ("Star", .host "Star" [])],
    ⟨"  ", rootAdapterName⟩⟩

def binder : Json :=
  .object [("_", .string "Box"), ("data", .object [("_", .bool true), ("$", .null)]),
    ("$", .array #[.object [("component", .string "Star")],
      .object [("_", .string "Box"), ("$", .array #[.object [("_", .string "None")]])]])]

def longBinder : Json :=
  .object [("component", .string "Box"), ("data", .object [("_", .bool true), ("$", .null)]),
    ("children", .array #[.object [("component", .string "Star")],
      .object [("component", .string "Box"),
        ("children", .array #[.object [("component", .string "None")]])]])]

lemma longForm_binder : longForm binder = longBinder := by
  rfl

lemma regular_binder : binder.Regular := by
  simp [binder, Json.Regular, Json.RegularMembers, Json.RegularItems, Fields.Distinct, Fields.names]

lemma speltOnce_binder : SpeltOnce binder := by
  have hplain : ∀ name ∈ ["_", "component", "$", "data"], Node.isComponentName name = false := by
    decide
  simp only [List.forall_mem_cons] at hplain
  simp [binder, speltOnce_object, Fields.names, Node.childrenKeys, Json.items, hplain]

def binderPaths : List (Option String) :=
  [some "Icon.$[0]", some "$[1].Icon.$[0]", some "$[1].$[0]"]

def longBinderPaths : List (Option String) :=
  [some "Icon.$[0]", some "children[1].Icon.$[0]", some "children[1].children[0]"]

lemma paths_binder :
    (compile binderTarget (Node.ofJson binder)).map (fun c => c.diagnostics.map (·.path)) =
        some binderPaths ∧
      (compile binderTarget (Node.ofJson longBinder)).map (fun c => c.diagnostics.map (·.path)) =
        some longBinderPaths := by
  decide +kernel

end Binder

theorem compile_longForm_binder : binder.Regular ∧ SpeltOnce binder ∧ longForm binder = longBinder ∧
    ∃ compiled respelled, compile binderTarget (Node.ofJson binder) = some compiled ∧
      compile binderTarget (Node.ofJson longBinder) = some respelled ∧
      respelled.markup = compiled.markup ∧ compiled.diagnostics.map (·.path) = binderPaths ∧
      respelled.diagnostics.map (·.path) = longBinderPaths := by
  obtain ⟨hshort, hlong⟩ := paths_binder
  obtain ⟨compiled, hc, hpaths⟩ := Option.map_eq_some_iff.mp hshort
  obtain ⟨other, ho, hother⟩ := Option.map_eq_some_iff.mp hlong
  obtain ⟨respelled, _, hr, hmarkup, _⟩ := compile_longForm regular_binder speltOnce_binder hc
  rw [longForm_binder] at hr
  obtain rfl := Option.some.inj (hr.symm.trans ho)
  exact ⟨regular_binder, speltOnce_binder, longForm_binder, compiled, respelled, hc, hr, hmarkup,
    hpaths, hother⟩

end TreeMarkup.Markup
