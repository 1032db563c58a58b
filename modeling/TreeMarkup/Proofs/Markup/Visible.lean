import TreeMarkup.Proofs.Markup.Unfolding

namespace TreeMarkup.Markup

mutual

inductive Shows (target : Target) : Node → Option Element → Prop
  | nothing {node : Node} : resolved? target node = none → Shows target node none
  | tag {node : Node} {name : String} {component : Component}
      {attributes : List (String × Form Element)} {children : Option (List Element)} :
      resolved? target node = some (name, component) →
      ShowsAttributes target (node.mergedAttributes component.defaults) attributes →
      ShowsChildren target node.childNodes children →
      Shows target node (some ⟨name, attributes, children⟩)

inductive ShowsAttributes (target : Target) :
    List Attribute → List (String × Form Element) → Prop
  | nil : ShowsAttributes target [] []
  | shown {a : Attribute} {rest : List Attribute} {form : Form Element}
      {forms : List (String × Form Element)} :
      ShowsForm target a.1 a.2 (some form) → ShowsAttributes target rest forms →
      ShowsAttributes target (a :: rest) ((a.1, form) :: forms)
  | dropped {a : Attribute} {rest : List Attribute} {forms : List (String × Form Element)} :
      ShowsForm target a.1 a.2 none → ShowsAttributes target rest forms →
      ShowsAttributes target (a :: rest) forms

inductive ShowsForm (target : Target) :
    String → AttributeValue Node → Option (Form Element) → Prop
  | bare {name : String} : name ≠ "" → ShowsForm target name (.boolean true) (some .bare)
  | nameless : ShowsForm target "" (.boolean true) none
  | boolean {name : String} : ShowsForm target name (.boolean false) (some (.literal "false"))
  | number {name : String} {n : Number} :
      ShowsForm target name (.number n) (some (.literal (numberLiteral n)))
  | null {name : String} : ShowsForm target name .null (some (.literal "null"))
  | object {name : String} {members : Json.Members} :
      ShowsForm target name (.object members) (some (.literal (Json.object members).text))
  | string {name text : String} :
      ShowsForm target name (.string text) (some (.text (Text.Quoted.escape text)))
  | reference {name component : String} : NameMap.contains target.registry component = true →
      ShowsForm target name (.reference component) (some (.reference component))
  | unregistered {name component : String} : NameMap.contains target.registry component = false →
      ShowsForm target name (.reference component) none
  | node {name : String} {node : Node} {e : Element} : Shows target node (some e) →
      ShowsForm target name (.node node) (some (.block e))
  | hidden {name : String} {node : Node} : Shows target node none →
      ShowsForm target name (.node node) none
  | unevaluable {name : String} : ShowsForm target name .unevaluable none
  | unsupported {name : String} : ShowsForm target name .unsupported none

inductive ShowsChildren (target : Target) :
    Option (List Node) → Option (List Element) → Prop
  | none : ShowsChildren target none none
  | some {nodes : List Node} {es : List Element} : ShowsNodes target nodes es →
      ShowsChildren target (some nodes) (some es)

inductive ShowsNodes (target : Target) : List Node → List Element → Prop
  | nil : ShowsNodes target [] []
  | shown {node : Node} {rest : List Node} {e : Element} {es : List Element} :
      Shows target node (some e) → ShowsNodes target rest es →
      ShowsNodes target (node :: rest) (e :: es)
  | hidden {node : Node} {rest : List Node} {es : List Element} :
      Shows target node none → ShowsNodes target rest es → ShowsNodes target (node :: rest) es

end

section Agreement

variable (target : Target) (expand : Node → Option Unfolding)

def ShowsUnfolded : Prop :=
  ∀ node u, expand node = some u → ∀ v, Shows target node v ↔ v = u.visible

variable {target expand} (h : ShowsUnfolded target expand)

include h

lemma showsForm_node {name : String} {node : Node} {u : Unfolding} (hu : expand node = some u)
    (form : Option (Form Element)) :
    ShowsForm target name (.node node) form ↔ form = u.visible.map .block := by
  constructor
  · intro hs
    cases hs with
    | node hn => simp [← (h node u hu _).mp hn]
    | hidden hn => simp [← (h node u hu _).mp hn]
  · rintro rfl
    cases hv : u.visible with
    | none => exact .hidden ((h node u hu none).mpr hv.symm)
    | some e => exact .node ((h node u hu (some e)).mpr hv.symm)

omit h in
lemma showsForm_reference {name component : String} (form : Option (Form Element)) :
    ShowsForm target name (.reference component) form ↔
      form = if NameMap.contains target.registry component then some (.reference component)
        else none := by
  constructor
  · intro hs
    cases hs with
    | reference hc => simp [hc]
    | unregistered hc => simp [hc]
  · rintro rfl
    cases hc : NameMap.contains target.registry component with
    | false => exact .unregistered hc
    | true => exact .reference hc

omit h in
lemma showsForm_bare {name : String} (form : Option (Form Element)) :
    ShowsForm target name (.boolean true) form ↔
      form = if name.isEmpty then none else some .bare := by
  constructor
  · intro hs
    cases hs with
    | bare hn => simp [hn]
    | nameless => rfl
  · rintro rfl
    by_cases hn : name = ""
    · subst hn
      exact .nameless
    · simp only [String.isEmpty_iff, hn, if_false]
      exact .bare hn

lemma showsForm_iff {name : String} {value : AttributeValue Node} {part : Part Unfolding}
    (hp : partOf target expand value = some part) (form : Option (Form Element)) :
    ShowsForm target name value form ↔ form = Unfolding.visiblePart name part := by
  cases value with
  | node node =>
    obtain ⟨u, hu, rfl⟩ := Option.map_eq_some_iff.mp hp
    exact showsForm_node h hu form
  | reference component =>
    rw [showsForm_reference]
    obtain rfl := Option.some.inj hp
    split <;> rfl
  | boolean b =>
    cases b with
    | true =>
      obtain rfl := Option.some.inj hp
      exact showsForm_bare form
    | false =>
      obtain rfl := Option.some.inj hp
      constructor
      · intro hs
        cases hs
        rfl
      · rintro rfl
        exact .boolean
  | _ =>
    obtain rfl := Option.some.inj hp
    constructor
    · intro hs
      cases hs
      rfl
    · rintro rfl
      constructor

lemma showsAttributes_iff {attributes : List Attribute} {parts : List (String × Part Unfolding)}
    (hp : unfoldAttributes target expand attributes = some parts)
    (forms : List (String × Form Element)) :
    ShowsAttributes target attributes forms ↔ forms = Unfolding.visibleAttributes parts := by
  induction attributes generalizing parts forms with
  | nil =>
    obtain rfl := Option.some.inj hp
    constructor
    · intro hs
      cases hs
      rfl
    · rintro rfl
      exact .nil
  | cons a rest ih =>
    obtain ⟨name, value⟩ := a
    obtain ⟨part, more, hv, hm, rfl⟩ := unfoldAttributes_cons hp
    constructor
    · intro hs
      cases hs with
      | shown hf hs =>
        have hf' := (showsForm_iff h hv _).mp hf
        have hs' := (ih hm _).mp hs
        simp [Unfolding.visibleAttributes, ← hf', ← hs']
      | dropped hf hs =>
        have hf' := (showsForm_iff h hv _).mp hf
        have hs' := (ih hm _).mp hs
        simp [Unfolding.visibleAttributes, ← hf', ← hs']
    · rintro rfl
      have hs := (ih hm _).mpr rfl
      cases hf : Unfolding.visiblePart name part with
      | none =>
        rw [Unfolding.visibleAttributes, hf]
        exact .dropped ((showsForm_iff h hv none).mpr hf.symm) hs
      | some form =>
        rw [Unfolding.visibleAttributes, hf]
        exact .shown ((showsForm_iff h hv (some form)).mpr hf.symm) hs

lemma showsNodes_iff {nodes : List Node} {us : List Unfolding}
    (hu : unfoldNodes expand nodes = some us) (es : List Element) :
    ShowsNodes target nodes es ↔ es = Unfolding.visibleChildren us := by
  induction nodes generalizing us es with
  | nil =>
    obtain rfl := Option.some.inj hu
    constructor
    · intro hs
      cases hs
      rfl
    · rintro rfl
      exact .nil
  | cons node rest ih =>
    obtain ⟨u, more, hn, hm, rfl⟩ := unfoldNodes_cons hu
    constructor
    · intro hs
      cases hs with
      | shown hf hs =>
        have hf' := (h node u hn _).mp hf
        have hs' := (ih hm _).mp hs
        simp [Unfolding.visibleChildren, ← hf', ← hs']
      | hidden hf hs =>
        have hf' := (h node u hn _).mp hf
        have hs' := (ih hm _).mp hs
        simp [Unfolding.visibleChildren, ← hf', ← hs']
    · rintro rfl
      have hs := (ih hm _).mpr rfl
      cases hv : u.visible with
      | none =>
        rw [Unfolding.visibleChildren, hv]
        exact .hidden ((h node u hn none).mpr hv.symm) hs
      | some e =>
        rw [Unfolding.visibleChildren, hv]
        exact .shown ((h node u hn (some e)).mpr hv.symm) hs

lemma showsChildren_iff {nodes : Option (List Node)} {us : Option (List Unfolding)}
    (hu : unfoldChildren expand nodes = some us) (es : Option (List Element)) :
    ShowsChildren target nodes es ↔ es = us.map Unfolding.visibleChildren := by
  cases nodes with
  | none =>
    obtain rfl := Option.some.inj hu
    constructor
    · intro hs
      cases hs
      rfl
    · rintro rfl
      exact .none
  | some nodes =>
    obtain ⟨us, hn, rfl⟩ := Option.map_eq_some_iff.mp hu
    constructor
    · intro hs
      cases hs with
      | some hs => simp [(showsNodes_iff h hn _).mp hs]
    · rintro rfl
      exact .some ((showsNodes_iff h hn _).mpr rfl)

end Agreement

/-- What a node unfolds to is what it shows, at every depth that suffices. -/
theorem shows_iff (target : Target) (depth : Nat) :
    ShowsUnfolded target (unfoldWithin target depth) := by
  induction depth with
  | zero =>
    intro node u hu
    exact absurd hu (by simp [unfoldWithin])
  | succ depth ih =>
    intro node u hu v
    rcases unfoldWithin_cases hu with
      ⟨hr, rfl⟩ | ⟨name, component, parts, us, hr, hp, hc, rfl⟩
    · constructor
      · intro hs
        cases hs with
        | nothing => rfl
        | tag ht _ _ => simp [hr] at ht
      · rintro rfl
        exact .nothing hr
    · rw [Unfolding.visible_tag]
      constructor
      · intro hs
        cases hs with
        | nothing hn => simp [hr] at hn
        | tag ht ha hs =>
          obtain ⟨rfl, rfl⟩ := resolved_unique hr ht
          rw [(showsAttributes_iff ih hp _).mp ha, (showsChildren_iff ih hc _).mp hs]
      · rintro rfl
        exact .tag hr ((showsAttributes_iff ih hp _).mpr rfl) ((showsChildren_iff ih hc _).mpr rfl)

end TreeMarkup.Markup
