import TreeMarkup.Proofs.FlatTree.Writing
import TreeMarkup.Proofs.Markup.Described
import TreeMarkup.Proofs.Markup.Visible

namespace TreeMarkup.Markup

section Merging

lemma map_fst_classified (members : List (String × Json)) :
    (members.map classified).map Prod.fst = Fields.names members := by
  rw [List.map_map]
  rfl

lemma mergedAttributes_ofMembers (members defaults : Json.Members) :
    (Node.ofMembers members).mergedAttributes defaults =
      (members.filter fun m => !Node.isReserved m.1).map classified ++
        (defaults.filter fun d => !Node.isReserved d.1 && !Fields.contains members d.1).map
          classified := by
  have hfilter : (defaults.filter fun d =>
        !Node.isReserved d.1 && !((Node.attributesOf members).any fun a => a.1 == d.1)) =
      defaults.filter fun d => !Node.isReserved d.1 && !Fields.contains members d.1 := by
    apply List.filter_congr
    intro d _
    cases hr : Node.isReserved d.1 with
    | true => rfl
    | false => rw [any_attributesOf members hr]
  rw [← attributesOf_eq, ← hfilter]
  rfl

def adopt (merged : List Attribute) (d : String × Json) : List Attribute :=
  if !Node.isReserved d.1 && !merged.any (fun a => a.1 == d.1) then merged ++ [classified d]
  else merged

lemma foldl_adopt {defaults : Json.Members} (h : Fields.Distinct defaults) (merged : List Attribute) :
    defaults.foldl adopt merged = merged ++ (defaults.filter fun d =>
      !Node.isReserved d.1 && !merged.any fun a => a.1 == d.1).map classified := by
  induction defaults generalizing merged with
  | nil => simp
  | cons d rest ih =>
    obtain ⟨hd, hrest⟩ := List.nodup_cons.mp h
    rw [List.foldl_cons, ih hrest, adopt, List.filter_cons]
    split
    · -- The names still to come are others, so that the name just put in takes none from them.
      have hfilter : (rest.filter fun e => !Node.isReserved e.1 &&
            !(merged ++ [classified d]).any fun a => a.1 == e.1) =
          rest.filter fun e => !Node.isReserved e.1 && !merged.any fun a => a.1 == e.1 := by
        apply List.filter_congr
        intro e he
        have hne : (d.1 == e.1) = false :=
          beq_eq_false_iff_ne.mpr fun hde => hd (hde ▸ List.mem_map_of_mem he)
        simp [classified, hne]
      rw [hfilter, List.map_cons, List.append_assoc]
      rfl
    · rfl

lemma mergedAttributes_eq_foldl {defaults : Json.Members} (h : Fields.Distinct defaults)
    (node : Node) : node.mergedAttributes defaults = defaults.foldl adopt node.attributes :=
  (foldl_adopt h node.attributes).symm

variable {members defaults : Json.Members}

lemma nodup_mergedAttributes (hm : Fields.Distinct members) (hd : Fields.Distinct defaults) :
    (((Node.ofMembers members).mergedAttributes defaults).map Prod.fst).Nodup := by
  rw [mergedAttributes_ofMembers, List.map_append, map_fst_classified, map_fst_classified,
    List.nodup_append]
  refine ⟨hm.sublist (List.filter_sublist.map _), hd.sublist (List.filter_sublist.map _), ?_⟩
  intro name hname other hother he
  obtain ⟨m, hm, rfl⟩ := List.mem_map.mp hname
  obtain ⟨d, hd, rfl⟩ := List.mem_map.mp hother
  have hset : Fields.contains members d.1 = true :=
    Fields.contains_eq_true.mpr (he ▸ List.mem_map_of_mem (List.mem_of_mem_filter hm))
  have hfree := (List.mem_filter.mp hd).2
  simp [hset] at hfree

lemma not_isReserved_of_mem {a : Attribute}
    (ha : a ∈ (Node.ofMembers members).mergedAttributes defaults) : Node.isReserved a.1 = false := by
  rw [mergedAttributes_ofMembers] at ha
  rcases List.mem_append.mp ha with ha | ha
  · obtain ⟨m, hm, rfl⟩ := List.mem_map.mp ha
    exact Bool.not_eq_eq_eq_not.mp (List.mem_filter.mp hm).2
  · obtain ⟨d, hd, rfl⟩ := List.mem_map.mp ha
    exact Bool.not_eq_eq_eq_not.mp (Bool.and_eq_true_iff.mp (List.mem_filter.mp hd).2).1

lemma value_of_mem (hm : Fields.Distinct members) (hd : Fields.Distinct defaults) {a : Attribute}
    (ha : a ∈ (Node.ofMembers members).mergedAttributes defaults) : ∃ value,
      a.2 = Node.classify a.1 value ∧ (Fields.get? members a.1 = some value ∨
        Fields.get? members a.1 = none ∧ Fields.get? defaults a.1 = some value) := by
  rw [mergedAttributes_ofMembers] at ha
  rcases List.mem_append.mp ha with ha | ha
  · obtain ⟨m, hmem, rfl⟩ := List.mem_map.mp ha
    exact ⟨m.2, rfl, Or.inl (Fields.get?_of_mem hm (List.mem_of_mem_filter hmem))⟩
  · obtain ⟨d, hmem, rfl⟩ := List.mem_map.mp ha
    have hfree : Fields.get? members d.1 = none := by
      have h := (Bool.and_eq_true_iff.mp (List.mem_filter.mp hmem).2).2
      rwa [Bool.not_eq_true', Fields.contains, Option.isSome_eq_false_iff,
        Option.isNone_iff_eq_none] at h
    exact ⟨d.2, rfl, Or.inr ⟨hfree, Fields.get?_of_mem hd (List.mem_of_mem_filter hmem)⟩⟩

end Merging

inductive Element.Inside (tag : Element) : Element → Prop
  | self : Inside tag tag
  | block {e inner : Element} {name : String} :
      (name, .block inner) ∈ e.attributes → Inside tag inner → Inside tag e
  | child {e c : Element} {children : List Element} :
      e.children = some children → c ∈ children → Inside tag c → Inside tag e

section Shown

variable {target : Target}

lemma Shows.tag_cases {node : Node} {e : Element} (h : Shows target node (some e)) :
    ∃ component, resolved? target node = some (e.name, component) ∧
      ShowsAttributes target (node.mergedAttributes component.defaults) e.attributes ∧
      ShowsChildren target node.childNodes e.children := by
  cases h with
  | tag hr ha hc => exact ⟨_, hr, ha, hc⟩

lemma ShowsAttributes.of_mem {attributes : List Attribute} {forms : List (String × Form Element)}
    (h : ShowsAttributes target attributes forms) {name : String} {form : Form Element}
    (hm : (name, form) ∈ forms) :
    ∃ value, (name, value) ∈ attributes ∧ ShowsForm target name value (some form) := by
  induction attributes generalizing forms with
  | nil =>
    cases h
    exact absurd hm List.not_mem_nil
  | cons a rest ih =>
    cases h with
    | shown hf hs =>
      rcases List.mem_cons.mp hm with he | hm
      · obtain ⟨rfl, rfl⟩ := Prod.mk.inj he
        exact ⟨a.2, List.mem_cons_self, hf⟩
      · obtain ⟨value, hv, hform⟩ := ih hs hm
        exact ⟨value, List.mem_cons_of_mem _ hv, hform⟩
    | dropped _ hs =>
      obtain ⟨value, hv, hform⟩ := ih hs hm
      exact ⟨value, List.mem_cons_of_mem _ hv, hform⟩

lemma ShowsAttributes.names_sublist {attributes : List Attribute}
    {forms : List (String × Form Element)} (h : ShowsAttributes target attributes forms) :
    (forms.map Prod.fst).Sublist (attributes.map Prod.fst) := by
  induction attributes generalizing forms with
  | nil =>
    cases h
    exact .slnil
  | cons a rest ih =>
    cases h with
    | shown _ hs => exact (ih hs).cons_cons a.1
    | dropped _ hs => exact (ih hs).cons a.1

lemma ShowsNodes.of_mem {nodes : List Node} {es : List Element} (h : ShowsNodes target nodes es)
    {e : Element} (hm : e ∈ es) : ∃ sub ∈ nodes, Shows target sub (some e) := by
  induction nodes generalizing es with
  | nil =>
    cases h
    exact absurd hm List.not_mem_nil
  | cons node rest ih =>
    cases h with
    | shown hn hs =>
      rcases List.mem_cons.mp hm with rfl | hm
      · exact ⟨node, List.mem_cons_self, hn⟩
      · obtain ⟨sub, hsub, hshows⟩ := ih hs hm
        exact ⟨sub, List.mem_cons_of_mem _ hsub, hshows⟩
    | hidden _ hs =>
      obtain ⟨sub, hsub, hshows⟩ := ih hs hm
      exact ⟨sub, List.mem_cons_of_mem _ hsub, hshows⟩

lemma Shows.nests_block {node : Node} {e inner : Element} (h : Shows target node (some e))
    {name : String} (hm : (name, .block inner) ∈ e.attributes) :
    ∃ sub, Nests target node sub ∧ Shows target sub (some inner) := by
  obtain ⟨component, hr, ha, _⟩ := h.tag_cases
  obtain ⟨value, hv, hform⟩ := ha.of_mem hm
  cases hform with
  | node hs => exact ⟨_, (nests_iff hr _).mpr (Or.inl ⟨name, hv⟩), hs⟩

lemma Shows.nests_child {node : Node} {e c : Element} (h : Shows target node (some e))
    {children : List Element} (hc : e.children = some children) (hm : c ∈ children) :
    ∃ sub, Nests target node sub ∧ Shows target sub (some c) := by
  obtain ⟨component, hr, _, hs⟩ := h.tag_cases
  rw [hc] at hs
  generalize hn : node.childNodes = nodes at hs
  cases hs with
  | some hs =>
    obtain ⟨sub, hsub, hshows⟩ := hs.of_mem hm
    exact ⟨sub, (nests_iff hr sub).mpr
      (Or.inr ⟨_, Option.eq_some_of_filter_eq_some hn, hsub⟩), hshows⟩

lemma Shows.reached {node : Node} {e tag : Element} (h : Shows target node (some e))
    (ht : Element.Inside tag e) :
    ∃ route path n, Reached target node route path n ∧ Shows target n (some tag) := by
  induction ht generalizing node with
  | self => exact ⟨[], [], node, .root node, h⟩
  | block hm _ ih =>
    obtain ⟨sub, ⟨turn, steps, hn⟩, hs⟩ := h.nests_block hm
    obtain ⟨route, path, n, hr, hshows⟩ := ih hs
    exact ⟨_, _, n, .inside hn hr, hshows⟩
  | child hc hm _ ih =>
    obtain ⟨sub, ⟨turn, steps, hn⟩, hs⟩ := h.nests_child hc hm
    obtain ⟨route, path, n, hr, hshows⟩ := ih hs
    exact ⟨_, _, n, .inside hn hr, hshows⟩

end Shown

section Regular

variable {target : Target}
  (hreg : ∀ entry ∈ target.registry, (Json.object entry.2.defaults).Regular)

include hreg

lemma regular_nested {value : Json} (hv : value.Regular) {sub : Node}
    (hn : Nests target (Node.ofJson value) sub) : ∃ inner, inner.Regular ∧ sub = Node.ofJson inner := by
  cases value with
  | object members =>
    cases hr : resolved? target (Node.ofJson (.object members)) with
    | none => exact absurd hn (not_nests hr sub)
    | some found =>
      obtain ⟨name, component⟩ := found
      rcases (nests_iff hr sub).mp hn with ⟨a, ha⟩ | ⟨nodes, hc, hs⟩
      · have hdefaults := hreg _ (mem_registry hr)
        obtain ⟨inner, hclass, hget | ⟨_, hget⟩⟩ := value_of_mem hv.1 hdefaults.1 ha
        · exact ⟨inner, hv.members.2 _ (Fields.mem_of_get? hget), ofJson_of_classify hclass.symm⟩
        · exact ⟨inner, hdefaults.members.2 _ (Fields.mem_of_get? hget),
            ofJson_of_classify hclass.symm⟩
      · obtain ⟨items, hm, item, hi, rfl⟩ := mem_childrenAt hc hs
        have hitems : (Json.array ⟨items⟩).Regular := hv.members.2 _ hm
        exact ⟨item, hitems.items item (by simpa [Json.items] using hi), rfl⟩
  | _ =>
    have hr : resolved? target Node.empty = none := rfl
    exact absurd hn (not_nests hr sub)

lemma regular_reached {value : Json} (hv : value.Regular) {node n : Node}
    (hnode : node = Node.ofJson value) {route : List Turn} {path : Path}
    (h : Reached target node route path n) : ∃ inner, inner.Regular ∧ n = Node.ofJson inner := by
  induction h generalizing value with
  | root node => exact ⟨value, hv, hnode⟩
  | inside hn _ ih =>
    subst hnode
    obtain ⟨inner, hi, hsub⟩ := regular_nested hreg hv ⟨_, _, hn⟩
    exact ih hi hsub

end Regular

/-- What is written under a name in the tag of a node comes from the member of that name, whether its
value can be written or not, and from a default only where there is no such member. -/
inductive WrittenFrom (target : Target) (members defaults : Json.Members) (name : String)
    (form : Form Element) : Prop
  | member {value : Json} : Fields.get? members name = some value →
      ShowsForm target name (Node.classify name value) (some form) →
      WrittenFrom target members defaults name form
  | default {value : Json} : Fields.get? members name = none →
      Fields.get? defaults name = some value →
      ShowsForm target name (Node.classify name value) (some form) →
      WrittenFrom target members defaults name form

/-- Merging takes the members of an object, then the defaults that the object does not set, in order and
without the reserved ones: the same as adopting the defaults one after the other. No name is twice among
them, and so none is in a tag of the markup. -/
theorem merged_names_distinct :
    (∀ members defaults : Json.Members, Fields.Distinct members → Fields.Distinct defaults →
      (Node.ofMembers members).mergedAttributes defaults =
          (members.filter fun m => !Node.isReserved m.1).map classified ++
            (defaults.filter fun d => !Node.isReserved d.1 && !Fields.contains members d.1).map
              classified ∧
        (Node.ofMembers members).mergedAttributes defaults =
          defaults.foldl adopt (Node.ofMembers members).attributes ∧
        (((Node.ofMembers members).mergedAttributes defaults).map Prod.fst).Nodup ∧
        ∀ a ∈ (Node.ofMembers members).mergedAttributes defaults, Node.isReserved a.1 = false) ∧
    ∀ (target : Target) (definition : Json) (compiled : Compiled), definition.Regular →
      (∀ entry ∈ target.registry, (Json.object entry.2.defaults).Regular) →
      compile target (Node.ofJson definition) = some compiled →
      ∃ v, Shows target (Node.ofJson definition) v ∧
        compiled.markup = (v.map fun e => layout target.options.indent (e.lines 0)).getD "" ∧
        ∀ e tag, v = some e → Element.Inside tag e → ∃ route path members component,
          Reached target (Node.ofJson definition) route path (Node.ofMembers members) ∧
          resolved? target (Node.ofMembers members) = some (tag.name, component) ∧
          (tag.attributes.map Prod.fst).Nodup ∧
          ∀ name form, (name, form) ∈ tag.attributes →
            WrittenFrom target members component.defaults name form := by
  constructor
  · intro members defaults hm hd
    exact ⟨mergedAttributes_ofMembers members defaults, mergedAttributes_eq_foldl hd _,
      nodup_mergedAttributes hm hd, fun a ha => not_isReserved_of_mem ha⟩
  · intro target definition compiled hr hreg hc
    rw [compile_eq] at hc
    obtain ⟨u, hu, rfl⟩ := Option.map_eq_some_iff.mp hc
    have hshows : Shows target (Node.ofJson definition) u.visible := (shows_iff _ _ _ u hu _).mpr rfl
    refine ⟨u.visible, hshows, rfl, ?_⟩
    intro e tag he ht
    rw [he] at hshows
    obtain ⟨route, path, n, hreached, hn⟩ := hshows.reached ht
    obtain ⟨inner, hinner, rfl⟩ := regular_reached hreg hr rfl hreached
    obtain ⟨component, hresolved, ha, _⟩ := hn.tag_cases
    cases inner with
    | object members =>
      have hdefaults := (hreg _ (mem_registry hresolved)).1
      refine ⟨route, path, members, component, hreached, hresolved,
        (nodup_mergedAttributes hinner.1 hdefaults).sublist ha.names_sublist, ?_⟩
      intro name form hm
      obtain ⟨value, hmem, hform⟩ := ha.of_mem hm
      obtain ⟨json, hjson, hget | ⟨hfree, hget⟩⟩ := value_of_mem hinner.1 hdefaults hmem
      · exact .member hget (hjson ▸ hform)
      · exact .default hfree hget (hjson ▸ hform)
    | _ => exact absurd hresolved (by simp [resolved?, Node.ofJson, Node.empty])

section Poster

def poster : Json.Members :=
  [("_", .string "Poster"), ("items", .array #[.null]), ("Icon", .number (.whole 7)),
    ("title", .string "One"), ("$", .array #[.object [("_", .string "Star")]])]

def posterDefaults : Json.Members :=
  [("component", .string "Other"), ("title", .string "Two"), ("items", .string "none"),
    ("gap", .number (.whole 4)), ("Icon", .object [("_", .string "Star")]), ("children", .null)]

def posterTarget : Target :=
  ⟨[("Poster", .host "Poster" posterDefaults), ("Star", .host "Star" [])], Options.default⟩

def posterMarkup : String :=
  "\n".intercalate ["<Poster", "  title=\"One\"", "  gap=\x7b4\x7d", ">", "  <Star/>", "</Poster>"]

lemma regular_poster : (Json.object poster).Regular := by
  simp [poster, Json.Regular, Json.RegularMembers, Json.RegularItems, Fields.Distinct, Fields.names]

lemma regular_posterDefaults : (Json.object posterDefaults).Regular := by
  simp [posterDefaults, Json.Regular, Json.RegularMembers, Fields.Distinct, Fields.names]

lemma regular_posterTarget :
    ∀ entry ∈ posterTarget.registry, (Json.object entry.2.defaults).Regular := by
  intro entry he
  rcases List.mem_cons.mp he with rfl | he
  · exact regular_posterDefaults
  · obtain rfl := List.mem_singleton.mp he
    simp [Json.Regular, Json.RegularMembers, Fields.Distinct, Fields.names]

lemma markup_poster : (compile posterTarget (Node.ofJson (.object poster))).map (·.markup) =
    some posterMarkup := by
  decide +kernel

end Poster

theorem merged_names_distinct_poster :
    Fields.Distinct poster ∧ Fields.Distinct posterDefaults ∧
    ((Node.ofMembers poster).mergedAttributes posterDefaults).map Prod.fst =
      ["items", "Icon", "title", "gap"] ∧
    (((Node.ofMembers poster).mergedAttributes posterDefaults).map Prod.fst).Nodup ∧
    (Json.object poster).Regular ∧
    (∀ entry ∈ posterTarget.registry, (Json.object entry.2.defaults).Regular) ∧
    ∃ compiled, compile posterTarget (Node.ofJson (.object poster)) = some compiled ∧
      compiled.markup = posterMarkup ∧
      ∃ v, Shows posterTarget (Node.ofJson (.object poster)) v ∧
        ∀ e tag, v = some e → Element.Inside tag e → (tag.attributes.map Prod.fst).Nodup := by
  obtain ⟨compiled, hc, hmarkup⟩ := Option.map_eq_some_iff.mp markup_poster
  obtain ⟨hmerging, htags⟩ := merged_names_distinct
  have hnames := (hmerging poster posterDefaults regular_poster.1 regular_posterDefaults.1).2.2.1
  obtain ⟨v, hshows, _, htag⟩ :=
    htags posterTarget (.object poster) compiled regular_poster regular_posterTarget hc
  refine ⟨regular_poster.1, regular_posterDefaults.1, by decide +kernel, hnames, regular_poster,
    regular_posterTarget, compiled, hc, hmarkup, v, hshows, ?_⟩
  intro e tag he hinside
  obtain ⟨_, _, _, _, _, _, hdistinct, _⟩ := htag e tag he hinside
  exact hdistinct

end TreeMarkup.Markup
