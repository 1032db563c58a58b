import Mathlib.Data.List.Infix
import TreeMarkup.Path

namespace TreeMarkup.Path

/-- One path is the beginning of the other, or they part at a place where one has a key and the other an
index. -/
def Conflict (p q : Path) : Prop :=
  p <+: q ∨ q <+: p ∨ ∃ common name i rest more,
    (p = common ++ .key name :: rest ∧ q = common ++ .index i :: more) ∨
      (p = common ++ .index i :: rest ∧ q = common ++ .key name :: more)

inductive Parted : Path → Path → Prop
  | keys {m n : String} {p q : Path} : m ≠ n → Parted (.key m :: p) (.key n :: q)
  | items {i j : Nat} {p q : Path} : i ≠ j → Parted (.index i :: p) (.index j :: q)
  | step {s : Step} {p q : Path} : Parted p q → Parted (s :: p) (s :: q)

lemma Parted.symm {p q : Path} (h : Parted p q) : Parted q p := by
  induction h with
  | keys hne => exact .keys hne.symm
  | items hne => exact .items hne.symm
  | step _ ih => exact .step ih

lemma Parted.irrefl (p : Path) : ¬Parted p p := by
  intro h
  induction p with
  | nil => cases h
  | cons s p ih =>
    cases h with
    | keys hne => exact hne rfl
    | items hne => exact hne rfl
    | step h => exact ih h

lemma conflict_cons {s t : Step} {p q : Path} : Conflict (s :: p) (t :: q) ↔
    (s = t ∧ Conflict p q) ∨ ∃ name i, (s = .key name ∧ t = .index i) ∨
      (s = .index i ∧ t = .key name) := by
  constructor
  · rintro (h | h | ⟨common, name, i, rest, more, h⟩)
    · obtain ⟨rfl, hr⟩ := List.cons_prefix_cons.mp h
      exact Or.inl ⟨rfl, Or.inl hr⟩
    · obtain ⟨rfl, hr⟩ := List.cons_prefix_cons.mp h
      exact Or.inl ⟨rfl, Or.inr (Or.inl hr)⟩
    · cases common with
      | nil =>
        refine Or.inr ⟨name, i, ?_⟩
        rcases h with ⟨hp, hq⟩ | ⟨hp, hq⟩
        · exact Or.inl ⟨(List.cons.inj hp).1, (List.cons.inj hq).1⟩
        · exact Or.inr ⟨(List.cons.inj hp).1, (List.cons.inj hq).1⟩
      | cons u common =>
        rcases h with ⟨hp, hq⟩ | ⟨hp, hq⟩
        · obtain ⟨⟨rfl, rfl⟩, ⟨rfl, rfl⟩⟩ := And.intro (List.cons.inj hp) (List.cons.inj hq)
          exact Or.inl ⟨rfl, Or.inr (Or.inr ⟨common, name, i, rest, more, Or.inl ⟨rfl, rfl⟩⟩)⟩
        · obtain ⟨⟨rfl, rfl⟩, ⟨rfl, rfl⟩⟩ := And.intro (List.cons.inj hp) (List.cons.inj hq)
          exact Or.inl ⟨rfl, Or.inr (Or.inr ⟨common, name, i, rest, more, Or.inr ⟨rfl, rfl⟩⟩)⟩
  · rintro (⟨rfl, h | h | ⟨common, name, i, rest, more, h⟩⟩ | ⟨name, i, ⟨rfl, rfl⟩ | ⟨rfl, rfl⟩⟩)
    · exact Or.inl (List.cons_prefix_cons.mpr ⟨rfl, h⟩)
    · exact Or.inr (Or.inl (List.cons_prefix_cons.mpr ⟨rfl, h⟩))
    · refine Or.inr (Or.inr ⟨s :: common, name, i, rest, more, ?_⟩)
      rcases h with ⟨rfl, rfl⟩ | ⟨rfl, rfl⟩
      · exact Or.inl ⟨rfl, rfl⟩
      · exact Or.inr ⟨rfl, rfl⟩
    · exact Or.inr (Or.inr ⟨[], name, i, p, q, Or.inl ⟨rfl, rfl⟩⟩)
    · exact Or.inr (Or.inr ⟨[], name, i, p, q, Or.inr ⟨rfl, rfl⟩⟩)

lemma Parted.not_conflict {p q : Path} (h : Parted p q) : ¬Conflict p q := by
  induction h with
  | keys hne => simp [conflict_cons, hne]
  | items hne => simp [conflict_cons, hne]
  | @step s p q _ ih =>
    rw [conflict_cons]
    rintro (⟨_, h⟩ | ⟨name, i, ⟨rfl, h⟩ | ⟨rfl, h⟩⟩)
    · exact ih h
    · exact absurd h (by simp)
    · exact absurd h (by simp)

lemma parted_of_not_conflict {p q : Path} (h : ¬Conflict p q) : Parted p q := by
  induction p generalizing q with
  | nil => exact absurd (Or.inl List.nil_prefix) h
  | cons s p ih =>
    cases q with
    | nil => exact absurd (Or.inr (Or.inl List.nil_prefix)) h
    | cons t q =>
      rw [conflict_cons] at h
      by_cases hs : s = t
      · subst hs
        exact .step (ih fun hc => h (Or.inl ⟨rfl, hc⟩))
      · match s, t with
        | .key m, .key n => exact .keys fun he => hs (congrArg Step.key he)
        | .index i, .index j => exact .items fun he => hs (congrArg Step.index he)
        | .key m, .index j => exact absurd (Or.inr ⟨m, j, Or.inl ⟨rfl, rfl⟩⟩) h
        | .index i, .key n => exact absurd (Or.inr ⟨n, i, Or.inr ⟨rfl, rfl⟩⟩) h

end TreeMarkup.Path
