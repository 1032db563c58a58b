import TreeMarkup.Proofs.Markup.Outcome
import TreeMarkup.Proofs.Markup.Described
import TreeMarkup.Proofs.Markup.Stability
import TreeMarkup.Proofs.Markup.Visible

namespace TreeMarkup.Markup

open FlatTree

def Provides (tree defaults : Json.Members) (name : String) (value : Json) : Prop :=
  (name, value) ∈ tree ∨ name ∉ Fields.names tree ∧ (name, value) ∈ defaults

/-- The value can be written as an attribute of that name. -/
inductive HasForm (flat : FlatRegistry) (name : String) : Json → Prop
  | plain {value : Json} : Node.isComponentName name = false → (∀ items, value ≠ .array items) →
      (name = "" → value ≠ .bool true) → HasForm flat name value
  | reference {component : String} : Node.isComponentName name = true →
      NameMap.contains flat component = true → HasForm flat name (.string component)
  | node {members : Json.Members} {component : String} : Node.isComponentName name = true →
      NamesRoot members component → NameMap.contains flat component = true →
      HasForm flat name (.object members)

section Forms

variable {target : Target} {name : String} {value : Json} {part : Part Unfolding}

lemma resolved_ofJson_isSome (members : Json.Members) :
    (resolved? target (Node.ofJson (.object members))).isSome ↔
      ∃ component, NamesRoot members component ∧
        NameMap.contains target.registry component = true := by
  rw [Option.isSome_iff_exists]
  constructor
  · rintro ⟨⟨component, found⟩, hr⟩
    obtain ⟨hn, hg⟩ := resolved_eq_some.mp hr
    exact ⟨component, componentOf_eq_some.mp hn, by simp [NameMap.contains, hg]⟩
  · rintro ⟨component, hn, hc⟩
    obtain ⟨found, hg⟩ := Option.isSome_iff_exists.mp hc
    exact ⟨(component, found), resolved_eq_some.mpr ⟨componentOf_eq_some.mpr hn, hg⟩⟩

lemma hasForm_plain (hn : Node.isComponentName name = false) :
    HasForm target.registry name value ↔
      (∀ items, value ≠ .array items) ∧ (name = "" → value ≠ .bool true) := by
  constructor
  · intro h
    cases h with
    | plain _ ha hb => exact ⟨ha, hb⟩
    | reference hc _ => exact absurd (hn.symm.trans hc) (by simp)
    | node hc _ _ => exact absurd (hn.symm.trans hc) (by simp)
  · rintro ⟨ha, hb⟩
    exact .plain hn ha hb

lemma visiblePart_isSome {depth : Nat}
    (hp : partOf target (unfoldWithin target depth) (Node.classify name value) = some part) :
    (Unfolding.visiblePart name part).isSome ↔ HasForm target.registry name value := by
  cases hn : Node.isComponentName name with
  | false =>
    rw [hasForm_plain hn]
    simp only [Node.classify, hn, Bool.false_eq_true, if_false] at hp
    cases value with
    | bool b =>
      cases b <;> obtain rfl := Option.some.inj hp <;> simp [Unfolding.visiblePart]
    | _ =>
      obtain rfl := Option.some.inj hp
      simp [Unfolding.visiblePart]
  | true =>
    simp only [Node.classify, hn, if_true] at hp
    cases value with
    | string component =>
      obtain rfl := Option.some.inj hp
      constructor
      · intro hv
        cases hc : NameMap.contains target.registry component with
        | true => exact .reference hn hc
        | false => simp [hc, Unfolding.visiblePart] at hv
      · intro h
        cases h with
        | plain hf _ _ => exact absurd (hn.symm.trans hf) (by simp)
        | reference _ hc => simp [hc, Unfolding.visiblePart]
    | object members =>
      obtain ⟨u, hu, rfl⟩ := Option.map_eq_some_iff.mp hp
      rw [Unfolding.visiblePart, Option.isSome_map, visible_isSome hu]
      refine (resolved_ofJson_isSome members).trans ⟨?_, ?_⟩
      · rintro ⟨component, hroot, hc⟩
        exact .node hn hroot hc
      · intro h
        cases h with
        | plain hf _ _ => exact absurd (hn.symm.trans hf) (by simp)
        | node _ hroot hc => exact ⟨_, hroot, hc⟩
    | _ =>
      obtain rfl := Option.some.inj hp
      simp only [Unfolding.visiblePart, Option.isSome_none, Bool.false_eq_true, false_iff]
      intro h
      cases h with
      | plain hf _ _ => exact absurd (hn.symm.trans hf) (by simp)

end Forms

section Carried

variable {target : Target} {expand : Node → Option Unfolding}

lemma mem_visibleAttributes {attributes : List Attribute} {parts : List (String × Part Unfolding)}
    (h : unfoldAttributes target expand attributes = some parts) (name : String) :
    name ∈ (Unfolding.visibleAttributes parts).map Prod.fst ↔ ∃ value part,
      (name, value) ∈ attributes ∧ partOf target expand value = some part ∧
        (Unfolding.visiblePart name part).isSome := by
  induction attributes generalizing parts with
  | nil =>
    obtain rfl := Option.some.inj h
    simp [Unfolding.visibleAttributes]
  | cons a rest ih =>
    obtain ⟨n, v⟩ := a
    obtain ⟨p, more, hv, hm, rfl⟩ := unfoldAttributes_cons h
    have hi := ih hm
    have hhead : name ∈ (Unfolding.visibleAttributes ((n, p) :: more)).map Prod.fst ↔
        (name = n ∧ (Unfolding.visiblePart n p).isSome) ∨
          name ∈ (Unfolding.visibleAttributes more).map Prod.fst := by
      cases hp : Unfolding.visiblePart n p <;> simp [Unfolding.visibleAttributes, hp]
    rw [hhead, hi]
    constructor
    · rintro (⟨rfl, hs⟩ | ⟨value, part, hmem, hp, hs⟩)
      · exact ⟨v, p, List.mem_cons_self, hv, hs⟩
      · exact ⟨value, part, List.mem_cons_of_mem _ hmem, hp, hs⟩
    · rintro ⟨value, part, hmem, hp, hs⟩
      rcases List.mem_cons.mp hmem with he | hmem
      · obtain ⟨rfl, rfl⟩ := Prod.mk.inj he
        obtain rfl := Option.some.inj (hv.symm.trans hp)
        exact Or.inl ⟨rfl, hs⟩
      · exact Or.inr ⟨value, part, hmem, hp, hs⟩

lemma mem_mergedAttributes_iff {node : Node} {tree defaults : Json.Members}
    (hnode : node.attributes = Node.attributesOf tree) (name : String) (value : AttributeValue Node) :
    (name, value) ∈ node.mergedAttributes defaults ↔ Node.isReserved name = false ∧
      ∃ json, Provides tree defaults name json ∧ value = Node.classify name json := by
  have hany (hr : Node.isReserved name = false) :
      node.attributes.any (fun a => a.1 == name) = true ↔ name ∈ Fields.names tree := by
    rw [hnode, any_attributesOf tree hr, Fields.contains_eq_true]
  constructor
  · intro h
    rcases List.mem_append.mp h with h | h
    · rw [hnode] at h
      obtain ⟨json, hm, hr, hv⟩ := mem_attributesOf.mp h
      exact ⟨hr, json, Or.inl hm, hv⟩
    · obtain ⟨⟨n, json⟩, hd, he⟩ := List.mem_map.mp h
      obtain ⟨rfl, rfl⟩ := Prod.mk.inj he
      obtain ⟨hd, hfree⟩ := List.mem_filter.mp hd
      obtain ⟨hr, hfree⟩ := Bool.and_eq_true_iff.mp hfree
      have hr : Node.isReserved n = false := by simpa using hr
      have hfree : n ∉ Fields.names tree := by
        intro hm
        simp [(hany hr).mpr hm] at hfree
      exact ⟨hr, json, Or.inr ⟨hfree, hd⟩, rfl⟩
  · rintro ⟨hr, json, hm | ⟨hfree, hd⟩, rfl⟩
    · apply List.mem_append_left
      rw [hnode]
      exact mem_attributesOf.mpr ⟨json, hm, hr, rfl⟩
    · apply List.mem_append_right
      refine List.mem_map.mpr ⟨(name, json), List.mem_filter.mpr ⟨hd, ?_⟩, rfl⟩
      simp [hr, Bool.eq_false_iff.mpr (mt (hany hr).mp hfree)]

lemma partOf_of_mem {attributes : List Attribute} {parts : List (String × Part Unfolding)}
    (h : unfoldAttributes target expand attributes = some parts) {name : String}
    {value : AttributeValue Node} (hm : (name, value) ∈ attributes) :
    ∃ part, partOf target expand value = some part := by
  cases hp : partOf target expand value with
  | some part => exact ⟨part, rfl⟩
  | none =>
    obtain ⟨sub, rfl, hu⟩ := partOf_eq_none.mp hp
    rw [unfoldAttributes_eq_none.mpr ⟨name, sub, hm, hu⟩] at h
    exact absurd h (by simp)

lemma mem_tag_names {depth : Nat} {node : Node} {tree defaults : Json.Members}
    (hnode : node.attributes = Node.attributesOf tree) {parts : List (String × Part Unfolding)}
    (hp : unfoldAttributes target (unfoldWithin target depth) (node.mergedAttributes defaults) =
      some parts) (name : String) :
    name ∈ (Unfolding.visibleAttributes parts).map Prod.fst ↔ Node.isReserved name = false ∧
      ∃ json, Provides tree defaults name json ∧ HasForm target.registry name json := by
  rw [mem_visibleAttributes hp]
  constructor
  · rintro ⟨value, part, hm, hpart, hs⟩
    obtain ⟨hr, json, hprovides, rfl⟩ := (mem_mergedAttributes_iff hnode name value).mp hm
    exact ⟨hr, json, hprovides, (visiblePart_isSome hpart).mp hs⟩
  · rintro ⟨hr, json, hprovides, hform⟩
    have hm := (mem_mergedAttributes_iff hnode name _).mpr ⟨hr, json, hprovides, rfl⟩
    obtain ⟨part, hpart⟩ := partOf_of_mem hp hm
    exact ⟨_, part, hm, hpart, (visiblePart_isSome hpart).mpr hform⟩

end Carried

section Root

variable {members aliased : Json.Members} {registry : Registry} {aliases : Json}
  {ambient : Attributes} {options : Options} {flat : FlatRegistry} {root host : String}
  {defaults : Attributes} {aliasLog : Log}

lemma compile_root {component : Component} {compiled : Compiled} (registry : FlatRegistry)
    (hg : NameMap.get? registry options.rootAdapter = some component)
    (hc : compile ⟨registry, options⟩
      { Node.ofMembers aliased with component := some options.rootAdapter } = some compiled) :
    ∃ tag : Element, Shows ⟨registry, options⟩
        { Node.ofMembers aliased with component := some options.rootAdapter } (some tag) ∧
      tag.name = options.rootAdapter ∧ compiled.markup = layout options.indent (tag.lines 0) ∧
      ∀ name, name ∈ tag.attributes.map Prod.fst ↔ Node.isReserved name = false ∧
        ∃ value, Provides aliased component.defaults name value ∧ HasForm registry name value := by
  rw [compile_eq, depthFor] at hc
  obtain ⟨u, hu, rfl⟩ := Option.map_eq_some_iff.mp hc
  have hresolved : resolved? ⟨registry, options⟩
      { Node.ofMembers aliased with component := some options.rootAdapter } =
        some (options.rootAdapter, component) := resolved_eq_some.mpr ⟨rfl, hg⟩
  rcases unfoldWithin_cases hu with ⟨hn, _⟩ | ⟨name, found, parts, us, hr, hp, _, rfl⟩
  · exact absurd (hn.symm.trans hresolved) (by simp)
  obtain ⟨rfl, rfl⟩ := resolved_unique hresolved hr
  have hvisible := Unfolding.visible_tag options.rootAdapter parts
    ({ Node.ofMembers aliased with component := some options.rootAdapter } : Node).childrenKey us
  refine ⟨_, (shows_iff _ _ _ _ hu _).mpr hvisible.symm, rfl, ?_, ?_⟩
  · simp only [Unfolding.markup, hvisible]
    rfl
  · exact mem_tag_names rfl hp

lemma build_bound {built : Compilation} {component : Component} (hn : NamesRoot members root)
    (hf : registry.flatten = .ok flat) (hg : NameMap.get? flat root = some component)
    (ha : aliasTree members aliases = .ok (aliased, aliasLog))
    (hb : build (.object members) registry aliases ambient options = some built) :
    built.registry = NameMap.insert options.rootAdapter (.adapter root component ambient) flat ∧
    ∃ compiled, compile ⟨built.registry, options⟩
      { Node.ofMembers aliased with component := some options.rootAdapter } = some compiled ∧
      built.markup = compiled.markup := by
  obtain ⟨bindLog, hbind⟩ := bindRoot_of_registered ambient options.rootAdapter hg
  rw [build_of_aliasTree (componentOf_eq_some.mpr hn) hf hbind ha] at hb
  obtain ⟨compiled, hc, rfl⟩ := Option.map_eq_some_iff.mp hb
  exact ⟨rfl, compiled, hc, rfl⟩

lemma root_tag {built : Compilation} (hn : NamesRoot members root)
    (hf : registry.flatten = .ok flat) (hg : NameMap.get? flat root = some (.host host defaults))
    (ha : aliasTree members aliases = .ok (aliased, aliasLog))
    (hb : build (.object members) registry aliases ambient options = some built) :
    ∃ tag : Element, Shows ⟨built.registry, options⟩
        { Node.ofMembers aliased with component := some options.rootAdapter } (some tag) ∧
      tag.name = options.rootAdapter ∧ built.markup = layout options.indent (tag.lines 0) ∧
      (∀ name, name ∈ tag.attributes.map Prod.fst ↔ Node.isReserved name = false ∧
        ∃ value, Provides aliased defaults name value ∧ HasForm built.registry name value) ∧
      ∀ received, built.registry.render options.rootAdapter received =
        some ⟨host, Fields.fill received ambient⟩ := by
  obtain ⟨hregistry, compiled, hc, hmarkup⟩ := build_bound hn hf hg ha hb
  have hadapter : NameMap.get? built.registry options.rootAdapter =
      some (.adapter root (.host host defaults) ambient) := by
    rw [hregistry, NameMap.get?_insert, if_pos rfl]
  obtain ⟨tag, hshows, hname, hlayout, hcarried⟩ := compile_root built.registry hadapter hc
  refine ⟨tag, hshows, hname, hmarkup.trans hlayout, hcarried, fun received => ?_⟩
  rw [FlatRegistry.render, hadapter]
  rfl

/-- When the adapter is rendered with what the root tag carries, the root component receives under each
name what the tag carries if the tree, or else the defaults, provide a value that can be written, and
the ambient value if not. -/
theorem root_receives {built : Compilation} (hn : NamesRoot members root)
    (hf : registry.flatten = .ok flat) (hg : NameMap.get? flat root = some (.host host defaults))
    (ha : aliasTree members aliases = .ok (aliased, aliasLog))
    (hb : build (.object members) registry aliases ambient options = some built) :
    ∃ tag : Element, Shows ⟨built.registry, options⟩
        { Node.ofMembers aliased with component := some options.rootAdapter } (some tag) ∧
      tag.name = options.rootAdapter ∧ built.markup = layout options.indent (tag.lines 0) ∧
      ∀ received : Attributes,
        (∀ name, name ∈ Fields.names received ↔ name ∈ tag.attributes.map Prod.fst) →
        ∃ attributes, built.registry.render options.rootAdapter received = some ⟨host, attributes⟩ ∧
          ∀ name, Node.isReserved name = false →
            ((∃ value, Provides aliased defaults name value ∧
                HasForm built.registry name value) →
              ∃ value, Fields.get? received name = some value ∧
                Fields.get? attributes name = some value) ∧
            ((∀ value, Provides aliased defaults name value →
                ¬HasForm built.registry name value) →
              Fields.get? attributes name = Fields.get? ambient name) := by
  obtain ⟨tag, hshows, hname, hlayout, hcarried, hrender⟩ := root_tag hn hf hg ha hb
  refine ⟨tag, hshows, hname, hlayout, fun received hreceived => ⟨_, hrender received, ?_⟩⟩
  intro name hreserved
  constructor
  · intro hform
    have hm := (hreceived name).mpr ((hcarried name).mpr ⟨hreserved, hform⟩)
    obtain ⟨value, hv⟩ := Fields.get?_of_mem_names hm
    exact ⟨value, hv, by rw [Fields.get?_fill, hv, Option.some_or]⟩
  · intro hform
    have hfree : Fields.get? received name = none := by
      cases hv : Fields.get? received name with
      | none => rfl
      | some value =>
        have hm := (hreceived name).mp (Fields.mem_names_of_get? hv)
        obtain ⟨_, json, hprovides, hwritten⟩ := (hcarried name).mp hm
        exact absurd hwritten (hform json hprovides)
    rw [Fields.get?_fill, hfree, Option.none_or]

end Root

section Listing

def listing : Json.Members :=
  [("_", .string "Panel"), ("items", .array #[.bool true]), ("title", .string "One")]

def listingRegistry : Registry :=
  [("Panel", .component (.host "Panel" [("gap", .null)]))]

def listingFlat : FlatRegistry :=
  [("Panel", .host "Panel" [("gap", .null)])]

def listingAmbient : Attributes :=
  [("items", .string "none"), ("title", .string "Two"), ("theme", .string "dark")]

def listingReceived : Attributes :=
  [("title", .string "One"), ("gap", .null)]

lemma build_listing :
    (build (.object listing) listingRegistry .null listingAmbient Options.default).isSome := by
  decide +kernel

lemma aliasTree_listing : ∃ log, aliasTree listing .null = .ok (listing, log) := by
  have hr : (Json.object listing).Regular := by
    simp [listing, Json.Regular, Json.RegularMembers, Json.RegularItems, Fields.Distinct, Fields.names]
  have ht : ofTree listing =
      .ok [("_", .string "Panel"), ("items[0]", .bool true), ("title", .string "One")] := rfl
  have hforms : flatForms listing .null = .ok (_, []) := flatForms_of_not_object ht (by simp)
  exact aliasTree_of_kept hr hforms fun key _ => rfl

lemma carried_listing (flat : FlatRegistry) (name : String) :
    name ∈ ["title", "gap"] ↔ Node.isReserved name = false ∧
      ∃ value, Provides listing [("gap", .null)] name value ∧ HasForm flat name value := by
  constructor
  · intro h
    simp only [List.mem_cons, List.not_mem_nil, or_false] at h
    rcases h with rfl | rfl
    · exact ⟨by decide, .string "One", Or.inl (by simp [listing]),
        .plain (by decide) (by simp) (by simp)⟩
    · exact ⟨by decide, .null, Or.inr (by simp [listing, Fields.names]),
        .plain (by decide) (by simp) (by simp)⟩
  · rintro ⟨hr, value, hprovides, hform⟩
    rcases hprovides with h | ⟨_, h⟩
    · simp only [listing, List.mem_cons, Prod.mk.injEq, List.not_mem_nil, or_false] at h
      rcases h with ⟨rfl, _⟩ | ⟨rfl, rfl⟩ | ⟨rfl, _⟩
      · exact absurd hr (by decide)
      · cases hform with
        | plain _ ha _ => exact absurd rfl (ha _)
      · simp
    · simp only [List.mem_singleton, Prod.mk.injEq] at h
      simp [h.1]

end Listing

theorem root_receives_listing : NamesRoot listing "Panel" ∧
    listingRegistry.flatten = .ok listingFlat ∧
    NameMap.get? listingFlat "Panel" = some (.host "Panel" [("gap", .null)]) ∧
    ∃ built log, aliasTree listing .null = .ok (listing, log) ∧
      build (.object listing) listingRegistry .null listingAmbient Options.default = some built ∧
      ∃ tag : Element, tag.name = rootAdapterName ∧
        ∀ received : Attributes,
          (∀ name, name ∈ Fields.names received ↔ name ∈ tag.attributes.map Prod.fst) →
          ∃ attributes, built.registry.render rootAdapterName received = some ⟨"Panel", attributes⟩ ∧
            (∃ value, Fields.get? received "title" = some value ∧
              Fields.get? attributes "title" = some value) ∧
            Fields.get? attributes "items" = some (.string "none") ∧
            Fields.get? attributes "theme" = some (.string "dark") := by
  obtain ⟨built, hb⟩ := Option.isSome_iff_exists.mp build_listing
  obtain ⟨log, ha⟩ := aliasTree_listing
  have hn : NamesRoot listing "Panel" := Or.inl rfl
  have hf : listingRegistry.flatten = .ok listingFlat := rfl
  have hg : NameMap.get? listingFlat "Panel" = some (.host "Panel" [("gap", .null)]) := rfl
  obtain ⟨tag, _, hname, _, hreceives⟩ := root_receives hn hf hg ha hb
  refine ⟨hn, hf, hg, built, log, ha, hb, tag, hname, fun received hreceived => ?_⟩
  obtain ⟨attributes, hrender, hall⟩ := hreceives received hreceived
  have hfree : ∀ name, Node.isReserved name = false → name ∉ ["title", "gap"] →
      Fields.get? attributes name = Fields.get? listingAmbient name := by
    intro name hr hname
    apply (hall name hr).2
    intro value hprovides hform
    exact hname ((carried_listing built.registry name).mpr ⟨hr, value, hprovides, hform⟩)
  have htitle := ((carried_listing built.registry "title").mp (by simp)).2
  exact ⟨attributes, hrender, (hall "title" (by decide)).1 htitle,
    hfree "items" (by decide) (by simp), hfree "theme" (by decide) (by simp)⟩

theorem not_explicit_wins_of_listing :
    ¬∀ (members aliased : Json.Members) (root host : String) (registry : Registry)
      (flat : FlatRegistry) (defaults ambient : Attributes) (aliases : Json) (log : Log)
      (options : Options) (built : Compilation) (tag : Element) (received attributes : Attributes),
      NamesRoot members root → registry.flatten = .ok flat →
      NameMap.get? flat root = some (.host host defaults) →
      aliasTree members aliases = .ok (aliased, log) →
      build (.object members) registry aliases ambient options = some built →
      Shows ⟨built.registry, options⟩
        { Node.ofMembers aliased with component := some options.rootAdapter } (some tag) →
      (∀ name, name ∈ Fields.names received ↔ name ∈ tag.attributes.map Prod.fst) →
      built.registry.render options.rootAdapter received = some ⟨host, attributes⟩ →
      ∀ name, Node.isReserved name = false →
        name ∈ Fields.names aliased ∨ name ∈ Fields.names defaults →
        Fields.get? attributes name = Fields.get? received name := by
  intro h
  obtain ⟨built, hb⟩ := Option.isSome_iff_exists.mp build_listing
  obtain ⟨log, ha⟩ := aliasTree_listing
  have hn : NamesRoot listing "Panel" := Or.inl rfl
  have hf : listingRegistry.flatten = .ok listingFlat := rfl
  have hg : NameMap.get? listingFlat "Panel" = some (.host "Panel" [("gap", .null)]) := rfl
  obtain ⟨tag, hshows, _, _, hcarried, hrender⟩ := root_tag hn hf hg ha hb
  have hitems := h listing listing "Panel" "Panel" listingRegistry listingFlat [("gap", .null)]
    listingAmbient .null log Options.default built tag listingReceived _ hn hf hg ha hb hshows
    (fun name => (carried_listing built.registry name).trans (hcarried name).symm)
    (hrender listingReceived) "items" (by decide) (Or.inl (by simp [listing, Fields.names]))
  have hfree : Fields.get? listingReceived "items" = none := rfl
  have hambient : Fields.get? listingAmbient "items" = some (.string "none") := rfl
  rw [Fields.get?_fill, hfree, hambient] at hitems
  exact absurd hitems (by simp)

end TreeMarkup.Markup
