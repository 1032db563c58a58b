import Mathlib.Data.List.Lex

namespace TreeMarkup

variable {α κ ε : Type} {r : κ → κ → Prop}

/-- What is found at the least place where anything is found, if there is such a place. -/
def Least (r : κ → κ → Prop) (found : List κ → Option ε) : Option ε → Prop
  | none => ∀ place, found place = none
  | some e => ∃ place, found place = some e ∧
      ∀ earlier, List.Lex r earlier place → found earlier = none

lemma least_here {found : List κ → Option ε} {e : ε} (h : found [] = some e) :
    Least r found (some e) :=
  ⟨[], h, fun _ he => nomatch he⟩

lemma least_children [Std.Asymm r] (key : α → κ) (found : α → List κ → Option ε)
    {first : α → Option ε} {children : List α} {all : List κ → Option ε}
    (hsorted : children.Pairwise fun a b => r (key a) (key b))
    (hleast : ∀ a ∈ children, Least r (found a) (first a)) (hnil : all [] = none)
    (hchild : ∀ a ∈ children, ∀ place, all (key a :: place) = found a place)
    (hother : ∀ k, (∀ a ∈ children, key a ≠ k) → ∀ place, all (k :: place) = none) :
    Least r all (children.findSome? first) := by
  -- Where nothing is found in the child with a key, or no child has it, nothing is found behind the key.
  have hquiet : ∀ k, (∀ a ∈ children, key a = k → first a = none) → ∀ place, all (k :: place) = none := by
    intro k hk place
    by_cases hex : ∃ a ∈ children, key a = k
    · obtain ⟨a, ha, rfl⟩ := hex
      have hnone := hleast a ha
      rw [hk a ha rfl] at hnone
      rw [hchild a ha]
      exact hnone place
    · exact hother k (fun a ha he => hex ⟨a, ha, he⟩) place
  cases hf : children.findSome? first with
  | none =>
    rw [List.findSome?_eq_none_iff] at hf
    intro place
    cases place with
    | nil => exact hnil
    | cons k place => exact hquiet k (fun a ha _ => hf a ha) place
  | some e =>
    obtain ⟨before, a, after, rfl, ha, hbefore⟩ := List.findSome?_eq_some_iff.mp hf
    have hm : a ∈ before ++ a :: after := by simp
    have hfirst := hleast a hm
    rw [ha] at hfirst
    obtain ⟨place, hplace, hleft⟩ := hfirst
    refine ⟨key a :: place, by rw [hchild a hm, hplace], ?_⟩
    intro earlier he
    cases he with
    | nil => exact hnil
    | cons hlex => rw [hchild a hm, hleft _ hlex]
    | @rel k rest _ _ hk =>
      apply hquiet k
      rintro b hb rfl
      rcases List.mem_append.mp hb with hb | hb
      · exact hbefore b hb
      · rcases List.mem_cons.mp hb with rfl | hb
        · exact absurd hk (asymm hk)
        · have hab := (List.pairwise_cons.mp (List.pairwise_append.mp hsorted).2.1).1 b hb
          exact absurd hk (asymm hab)

lemma Least.eq_some_iff [Std.Trichotomous r] {found : List κ → Option ε} {result : Option ε}
    (h : Least r found result) {e : ε} : result = some e ↔
      ∃ place, found place = some e ∧ ∀ earlier, List.Lex r earlier place → found earlier = none := by
  constructor
  · rintro rfl
    exact h
  · rintro ⟨place, hplace, hleft⟩
    cases result with
    | none => exact absurd (hplace.symm.trans (h place)) (by simp)
    | some other =>
      obtain ⟨least, hleast, hbefore⟩ := h
      rcases trichotomous_of (List.Lex r) least place with hlt | rfl | hlt
      · exact absurd (hleast.symm.trans (hleft least hlt)) (by simp)
      · exact hleast.symm.trans hplace
      · exact absurd (hplace.symm.trans (hbefore place hlt)) (by simp)

lemma Least.eq_none_iff {found : List κ → Option ε} {result : Option ε} (h : Least r found result) :
    result = none ↔ ∀ place, found place = none := by
  constructor
  · rintro rfl
    exact h
  · intro hnone
    cases result with
    | none => rfl
    | some e =>
      obtain ⟨place, hplace, _⟩ := h
      exact absurd (hplace.symm.trans (hnone place)) (by simp)

end TreeMarkup
