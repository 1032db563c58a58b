import TreeMarkup.Proofs.Markup.Described
import TreeMarkup.Proofs.Markup.Outcome
import TreeMarkup.Proofs.Markup.Stability

namespace TreeMarkup

namespace Json

mutual

def Says (text : String) : Json → Prop
  | .string s => s = text
  | .array ⟨items⟩ => ItemsSay text items
  | .object members => MembersSay text members
  | _ => False

def ItemsSay (text : String) : List Json → Prop
  | [] => False
  | item :: rest => Says text item ∨ ItemsSay text rest

def MembersSay (text : String) : List (String × Json) → Prop
  | [] => False
  | (_, value) :: rest => Says text value ∨ MembersSay text rest

end

variable {text : String}

lemma itemsSay_of_mem {items : List Json} {item : Json} (hm : item ∈ items) (h : item.Says text) :
    ItemsSay text items := by
  induction items with
  | nil => exact absurd hm List.not_mem_nil
  | cons first rest ih =>
    rcases List.mem_cons.mp hm with rfl | hm
    · exact Or.inl h
    · exact Or.inr (ih hm)

lemma membersSay_of_mem {members : List (String × Json)} {key : String} {value : Json}
    (hm : (key, value) ∈ members) (h : value.Says text) : MembersSay text members := by
  induction members with
  | nil => exact absurd hm List.not_mem_nil
  | cons first rest ih =>
    rcases List.mem_cons.mp hm with rfl | hm
    · exact Or.inl h
    · exact Or.inr (ih hm)

end Json

namespace Markup

section Unsaid

variable {text : String} {node : Node}

def Unsaid (text : String) (node : Node) : Prop :=
  ∃ value, node = Node.ofJson value ∧ ¬value.Says text

/-- Nothing that the node holds says the text, whatever its component is. -/
structure Quiet (text : String) (node : Node) : Prop where
  references : ∀ a reference, (a, .reference reference) ∈ node.attributes → reference ≠ text
  nodes : ∀ a sub, (a, .node sub) ∈ node.attributes → Unsaid text sub
  children : ∀ nodes, node.children = some nodes → ∀ sub ∈ nodes, Unsaid text sub

lemma reference_of_classify {key reference : String} {value : Json}
    (h : Node.classify key value = .reference reference) : value = .string reference := by
  rw [Node.classify] at h
  split at h
  · cases value <;> simp_all [Node.componentValue]
  · cases value <;> simp [Node.plainValue] at h

lemma ne_of_classify {key reference : String} {value : Json} (hs : ¬value.Says text)
    (h : Node.classify key value = .reference reference) : reference ≠ text := by
  rw [reference_of_classify h] at hs
  exact hs

lemma unsaid_of_classify {key : String} {value : Json} {sub : Node} (hs : ¬value.Says text)
    (h : Node.classify key value = .node sub) : Unsaid text sub :=
  ⟨value, ofJson_of_classify h, hs⟩

lemma childrenKeyOf_not_mem (members : Json.Members) :
    Node.childrenKeyOf members ∉ Node.componentKeys := by
  have hkeys : ∀ key ∈ Node.childrenKeys, key ∉ Node.componentKeys := by decide
  exact hkeys _ (childrenKeyOf_mem members)

lemma quiet_ofMembers {members : Json.Members}
    (h : ∀ key value, (key, value) ∈ members → key ∉ Node.componentKeys → ¬value.Says text) :
    Quiet text (Node.ofMembers members) := by
  have hattribute : ∀ {a : String} {value : Json}, (a, value) ∈ members →
      Node.isReserved a = false → ¬value.Says text := by
    intro a value hm hr
    apply h a value hm
    intro hk
    simp [Node.isReserved, hk] at hr
  constructor
  · intro a reference ha
    obtain ⟨value, hm, hr, hv⟩ := mem_attributesOf.mp ha
    exact ne_of_classify (hattribute hm hr) hv.symm
  · intro a sub ha
    obtain ⟨value, hm, hr, hv⟩ := mem_attributesOf.mp ha
    exact unsaid_of_classify (hattribute hm hr) hv.symm
  · intro nodes hc sub hs
    obtain ⟨items, hm, item, hi, rfl⟩ := mem_childrenAt hc hs
    have hitems := h _ _ hm (childrenKeyOf_not_mem members)
    exact ⟨item, rfl, fun hsays => hitems (Json.itemsSay_of_mem hi hsays)⟩

lemma Unsaid.quiet (h : Unsaid text node) : Quiet text node := by
  obtain ⟨value, rfl, hs⟩ := h
  cases value with
  | object members =>
    exact quiet_ofMembers fun key value hm _ hsays => hs (Json.membersSay_of_mem hm hsays)
  | _ => constructor <;> simp [Node.ofJson, Node.empty]

lemma Unsaid.component_ne (h : Unsaid text node) : node.component ≠ some text := by
  obtain ⟨value, rfl, hs⟩ := h
  cases value with
  | object members =>
    have hget : ∀ key, Fields.get? members key ≠ some (.string text) := fun key hg =>
      hs (Json.membersSay_of_mem (Fields.mem_of_get? hg) rfl)
    intro hn
    rcases componentOf_eq_some.mp hn with hg | ⟨_, hg⟩
    · exact hget _ hg
    · exact hget _ hg
  | _ => simp [Node.ofJson, Node.empty]

lemma Quiet.reference_ne (h : Quiet text node) {defaults : Json.Members}
    (hd : ¬(Json.object defaults).Says text) {a reference : String}
    (ha : (a, .reference reference) ∈ node.mergedAttributes defaults) : reference ≠ text := by
  rcases mem_mergedAttributes ha with ha | ha
  · exact h.references a reference ha
  · obtain ⟨d, hm, he⟩ := List.mem_map.mp ha
    exact ne_of_classify (fun hs => hd (Json.membersSay_of_mem hm hs)) (Prod.mk.inj he).2

lemma Quiet.inside (h : Quiet text node) {target : Target} {name : String} {component : Component}
    (hr : resolved? target node = some (name, component))
    (hd : ¬(Json.object component.defaults).Says text) {sub : Node} (hn : Nests target node sub) :
    Unsaid text sub := by
  rcases (nests_iff hr sub).mp hn with ⟨a, ha⟩ | ⟨nodes, hc, hs⟩
  · rcases mem_mergedAttributes ha with ha | ha
    · exact h.nodes a sub ha
    · obtain ⟨d, hm, he⟩ := List.mem_map.mp ha
      exact unsaid_of_classify (fun hs => hd (Json.membersSay_of_mem hm hs)) (Prod.mk.inj he).2
  · exact h.children nodes hc sub hs

end Unsaid

section Rebinding

variable {flat : FlatRegistry} {adapter : String} {options : Options} {node : Node}

lemma contains_insert_of_ne {name : String} (h : name ≠ adapter) (wrapped : Component) :
    NameMap.contains (NameMap.insert adapter wrapped flat) name = NameMap.contains flat name := by
  rw [NameMap.contains, NameMap.contains, NameMap.get?_insert_of_ne h]

variable (hd : ∀ entry ∈ flat, ¬(Json.object entry.2.defaults).Says adapter)

include hd

lemma Unsaid.alike (h : Unsaid adapter node) (wrapped : Component) :
    Alike ⟨flat, options⟩ ⟨NameMap.insert adapter wrapped flat, options⟩ node := by
  constructor
  · cases hn : node.component with
    | none => simp [resolved?, hn]
    | some name =>
      have hne : adapter ≠ name := fun he => h.component_ne (he ▸ hn)
      simp [resolved?, hn, NameMap.get?_insert, hne]
  · intro name component hr a reference ha
    have hdefaults := hd _ (mem_registry hr)
    exact contains_insert_of_ne (h.quiet.reference_ne hdefaults ha) wrapped

lemma unfoldWithin_of_unsaid (h : Unsaid adapter node) (wrapped : Component) (depth : Nat) :
    unfoldWithin ⟨NameMap.insert adapter wrapped flat, options⟩ depth node =
      unfoldWithin ⟨flat, options⟩ depth node := by
  have hinside : ∀ node, Unsaid adapter node → ∀ sub, Nests ⟨flat, options⟩ node sub →
      Unsaid adapter sub := by
    intro node h sub hn
    cases hr : resolved? ⟨flat, options⟩ node with
    | none => exact absurd hn (not_nests hr sub)
    | some found => exact h.quiet.inside hr (hd _ (mem_registry hr)) hn
  exact unfoldWithin_congr hinside (fun node h => h.alike hd wrapped) h depth

lemma unfoldWithin_rebound (hq : Quiet adapter node) {root : String} {component : Component}
    (wrapped : Component)
    (hr : resolved? ⟨flat, options⟩ node = some (root, component))
    (hw : wrapped.defaults = component.defaults) {depth : Nat} {u : Unfolding}
    (hu : unfoldWithin ⟨flat, options⟩ (depth + 1) node = some u) : ∃ parts us,
    u = .tag root parts node.childrenKey us ∧ us.isSome = node.childNodes.isSome ∧
    unfoldWithin ⟨NameMap.insert adapter wrapped flat, options⟩ (depth + 1)
      { node with component := some adapter } = some (.tag adapter parts node.childrenKey us) := by
  rcases unfoldWithin_cases hu with ⟨hn, _⟩ | ⟨name, found, parts, us, hfound, hp, hc, rfl⟩
  · exact absurd (hn.symm.trans hr) (by simp)
  obtain ⟨rfl, rfl⟩ := resolved_unique hr hfound
  have hdefaults := hd _ (mem_registry hr)
  -- The root may be looked up elsewhere than before, but all inside it is unsaid and stays as it was.
  obtain ⟨hparts, hchildren⟩ := unfold_inside_congr
    ⟨NameMap.insert adapter wrapped flat, options⟩ hr
    (fun a reference ha => contains_insert_of_ne (hq.reference_ne hdefaults ha) wrapped)
    fun sub hn => unfoldWithin_of_unsaid hd (hq.inside hr hdefaults hn) wrapped depth
  rw [hp] at hparts
  rw [hc] at hchildren
  refine ⟨parts, us, rfl, isSome_of_unfoldChildren hc, ?_⟩
  rw [unfoldWithin, resolved_adapter]
  have hmerged : ({ node with component := some adapter } : Node).mergedAttributes wrapped.defaults =
      node.mergedAttributes component.defaults := by
    rw [hw]
    rfl
  simp only [hmerged, hparts, Option.bind_some]
  exact Option.map_eq_some_iff.mpr ⟨us, hchildren, rfl⟩

end Rebinding

open FlatTree

variable {members : Json.Members} {registry : Registry} {aliases : Json} {options : Options}
  {root : String} {flat : FlatRegistry} {flatTree : FlatTree} {component : Component}

lemma quiet_root
    (hs : ∀ key value, (key, value) ∈ members → value.Says options.rootAdapter →
      Node.firstOf Node.componentKeys members = some (key, value)) :
    Quiet options.rootAdapter (Node.ofMembers members) := by
  apply quiet_ofMembers
  intro key value hm hk hsays
  obtain ⟨found, hfound, hget⟩ := List.exists_of_findSome?_eq_some (hs key value hm hsays)
  obtain ⟨_, _, he⟩ := Option.map_eq_some_iff.mp hget
  obtain rfl := (Prod.mk.inj he).1
  exact hk hfound

lemma aliasTree_of_renames_nothing (hr : (Json.object members).Regular)
    (ht : ofTree members = .ok flatTree)
    (ha : ∀ table, aliases = .object table → ∃ renames, ofTree table = .ok renames ∧
      ∀ key ∈ Fields.names flatTree, target renames key = key) :
    ∃ log, aliasTree members aliases = .ok (members, log) := by
  by_cases hobject : ∃ table, aliases = .object table
  · obtain ⟨table, rfl⟩ := hobject
    obtain ⟨renames, hrenames, hk⟩ := ha table rfl
    exact aliasTree_of_kept hr (flatForms_object ht hrenames) hk
  · have hforms := flatForms_of_not_object ht fun table h => hobject ⟨table, h⟩
    exact aliasTree_of_kept hr hforms fun key _ => rfl

lemma diagnostics_tag (name other : String) (parts : List (String × Part Unfolding)) (key : String)
    (us : Option (List Unfolding)) (level : Nat) (path : Path) :
    ((Unfolding.tag name parts key us).log level path).diagnostics =
      ((Unfolding.tag other parts key us).log level path).diagnostics := by
  cases us <;> simp only [Unfolding.log, diagnostics_compiling]

/-- If aliases rename nothing and the name of the adapter is said nowhere but perhaps as the root's own,
then building differs from compiling in the name in the root's tags and in the warning that an entry of the
registry had to give way. -/
theorem build_eq_compile_rebound {ambient : Attributes} {direct : Compiled}
    (hr : (Json.object members).Regular) (ht : ofTree members = .ok flatTree)
    (hn : NamesRoot members root) (hf : registry.flatten = .ok flat)
    (hg : NameMap.get? flat root = some component)
    (ha : ∀ table, aliases = .object table → ∃ renames, ofTree table = .ok renames ∧
      ∀ key ∈ Fields.names flatTree, target renames key = key)
    (hs : ∀ key value, (key, value) ∈ members → value.Says options.rootAdapter →
      Node.firstOf Node.componentKeys members = some (key, value))
    (hd : ∀ entry ∈ flat, ¬(Json.object entry.2.defaults).Says options.rootAdapter)
    (hc : compile ⟨flat, options⟩ (Node.ofJson (.object members)) = some direct) :
    ∃ built middle, build (.object members) registry aliases ambient options = some built ∧
      direct.markup = tagged root middle (Node.ofJson (.object members)).childNodes.isSome ∧
      built.markup =
        tagged options.rootAdapter middle (Node.ofJson (.object members)).childNodes.isSome ∧
      built.diagnostics = (if NameMap.contains flat options.rootAdapter then
        [⟨.warning, .reservedNameCollision, "`" ++ options.rootAdapter ++
          "` is a reserved component name; the registered entry will be overridden", none⟩] else [])
        ++ direct.diagnostics := by
  have hcomponent := componentOf_eq_some.mpr hn
  have hresolved : resolved? ⟨flat, options⟩ (Node.ofMembers members) = some (root, component) := by
    have hnode : (Node.ofMembers members).component = some root := hcomponent
    simp [resolved?, hnode, hg]
  rw [compile_eq] at hc
  obtain ⟨u, hu, rfl⟩ := Option.map_eq_some_iff.mp hc
  obtain ⟨parts, us, rfl, hcloses, hrebound⟩ := unfoldWithin_rebound hd (quiet_root hs)
    (.adapter root component ambient) hresolved rfl hu
  obtain ⟨middle, hm⟩ := markup_tag options.indent parts (Node.ofMembers members).childrenKey us
  rw [hcloses] at hm
  obtain ⟨aliasLog, halias⟩ := aliasTree_of_renames_nothing hr ht ha
  obtain ⟨bindLog, hbind⟩ := bindRoot_of_registered ambient options.rootAdapter hg
  have hb := build_of_aliasTree hcomponent hf hbind halias
  rw [compile_of_unfoldWithin hrebound, Option.map_some,
    diagnostics_tag options.rootAdapter root] at hb
  exact ⟨_, middle, hb, hm root, hm options.rootAdapter, rfl⟩

section Frame

def frame : Json.Members :=
  [("_", .string "Box"), ("title", .string "One"),
    ("$", .array #[.object [("_", .string "Box")], .object [("_", .string "None")]])]

def frameRegistry : Registry :=
  [("Box", .component (.host "Box" [("gap", .number (.whole 4))])),
    ("RootAdapter", .component (.host "RootAdapter" []))]

def frameFlat : FlatRegistry :=
  [("Box", .host "Box" [("gap", .number (.whole 4))]), ("RootAdapter", .host "RootAdapter" [])]

def frameLeaves : FlatTree :=
  [("_", .string "Box"), ("title", .string "One"), ("$[0]._", .string "Box"),
    ("$[1]._", .string "None")]

def frameTable : Json.Members :=
  [("title", .number (.whole 1)), ("other", .string "title")]

def frameNames : FlatTree :=
  [("title", .number (.whole 1)), ("other", .string "title")]

lemma regular_frame : (Json.object frame).Regular := by
  simp [frame, Json.Regular, Json.RegularMembers, Json.RegularItems, Fields.Distinct, Fields.names]

lemma not_says_frame : ∀ entry ∈ frame, ¬entry.2.Says rootAdapterName := by
  simp [frame, rootAdapterName, Json.Says, Json.MembersSay, Json.ItemsSay]

lemma not_says_frameFlat :
    ∀ entry ∈ frameFlat, ¬(Json.object entry.2.defaults).Says rootAdapterName := by
  simp [frameFlat, Json.Says, Json.MembersSay]

lemma compile_frame :
    (compile ⟨frameFlat, Options.default⟩ (Node.ofJson (.object frame))).isSome := by
  decide +kernel

end Frame

theorem build_eq_compile_rebound_frame : (Json.object frame).Regular ∧
    ofTree frame = .ok frameLeaves ∧ NamesRoot frame "Box" ∧
    frameRegistry.flatten = .ok frameFlat ∧ ofTree frameTable = .ok frameNames ∧
    (∀ key ∈ Fields.names frameLeaves, target frameNames key = key) ∧
    (∀ entry ∈ frame, ¬entry.2.Says rootAdapterName) ∧
    (∀ entry ∈ frameFlat, ¬(Json.object entry.2.defaults).Says rootAdapterName) ∧
    ∃ direct built middle,
      compile ⟨frameFlat, Options.default⟩ (Node.ofJson (.object frame)) = some direct ∧
      build (.object frame) frameRegistry (.object frameTable) [] Options.default = some built ∧
      direct.markup = tagged "Box" middle true ∧
      built.markup = tagged rootAdapterName middle true ∧
      built.diagnostics = Binding.collision rootAdapterName :: direct.diagnostics := by
  obtain ⟨direct, hc⟩ := Option.isSome_iff_exists.mp compile_frame
  have ht : ofTree frame = .ok frameLeaves := rfl
  have hn : NamesRoot frame "Box" := Or.inl rfl
  have hf : frameRegistry.flatten = .ok frameFlat := rfl
  have hrenames : ofTree frameTable = .ok frameNames := rfl
  have hk : ∀ key ∈ Fields.names frameLeaves, target frameNames key = key := by decide
  have ha : ∀ table, Json.object frameTable = .object table → ∃ renames,
      ofTree table = .ok renames ∧ ∀ key ∈ Fields.names frameLeaves, target renames key = key := by
    intro table htable
    obtain rfl := Json.object.inj htable
    exact ⟨frameNames, hrenames, hk⟩
  have hs : ∀ key value, (key, value) ∈ frame → value.Says Options.default.rootAdapter →
      Node.firstOf Node.componentKeys frame = some (key, value) :=
    fun key value hm hsays => absurd hsays (not_says_frame (key, value) hm)
  obtain ⟨built, middle, hb, hdirect, hbuilt, hd⟩ :=
    build_eq_compile_rebound regular_frame ht hn hf rfl ha hs not_says_frameFlat hc
  exact ⟨regular_frame, ht, hn, hf, hrenames, hk, not_says_frame, not_says_frameFlat,
    direct, built, middle, hc, hb, hdirect, hbuilt, hd⟩

end Markup
end TreeMarkup
