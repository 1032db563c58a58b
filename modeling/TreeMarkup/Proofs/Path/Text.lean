import Mathlib.Data.List.Induction
import TreeMarkup.Proofs.Path.Grammar

namespace TreeMarkup

namespace Path

def ValidStep : Step → Prop
  | .key name => IsKey name
  | .index i => i ≤ maxIndex

def startsWithKey : Path → Prop
  | .key _ :: _ => True
  | _ => False

/-- Paths that a text can spell. -/
structure Readable (path : Path) : Prop where
  first : startsWithKey path
  steps : ∀ s ∈ path, ValidStep s

lemma checkKey_eq_ok (key : String) (parent : Path) : checkKey key parent = .ok () ↔ IsKey key := by
  rw [checkKey, IsKey]
  by_cases he : key = ""
  · simp [he]
  · by_cases hd : key.toList.any isDelimiter
    · have hne : ¬∀ c ∈ key.toList, isDelimiter c = false := by
        intro h
        obtain ⟨c, hc, hb⟩ := List.any_eq_true.mp hd
        simp [h c hc] at hb
      simp [he, hd, hne]
    · have ha : ∀ c ∈ key.toList, isDelimiter c = false := by
        intro c hc
        cases hb : isDelimiter c with
        | false => rfl
        | true => exact absurd (List.any_eq_true.mpr ⟨c, hc, hb⟩) hd
      simp [he, hd]
      exact ha

lemma checkKey_eq_error {key : String} {parent : Path} {e : PathError} :
    checkKey key parent = .error e ↔ (key = "" ∧ e = .emptyKey parent) ∨
      (key ≠ "" ∧ (∃ c ∈ key.toList, isDelimiter c = true) ∧ e = .delimiter key) := by
  rw [checkKey]
  by_cases he : key = ""
  · rw [if_pos (String.isEmpty_iff.mpr he), Except.error.injEq]
    exact ⟨fun h => Or.inl ⟨he, h.symm⟩, fun h => h.elim (·.2.symm) fun hn => absurd he hn.1⟩
  · rw [if_neg (mt String.isEmpty_iff.mp he)]
    by_cases hd : key.toList.any isDelimiter = true
    · rw [if_pos hd, Except.error.injEq]
      exact ⟨fun h => Or.inr ⟨he, List.any_eq_true.mp hd, h.symm⟩,
        fun h => h.elim (fun hn => absurd hn.1 he) (·.2.2.symm)⟩
    · rw [if_neg hd]
      refine ⟨fun h => (nomatch h), ?_⟩
      rintro (⟨hn, _⟩ | ⟨_, hc, _⟩)
      · exact absurd hn he
      · exact absurd (List.any_eq_true.mpr hc) hd

inductive Misnamed (parent : Path) (key : String) : PathError → Prop
  | empty : key = "" → Misnamed parent key (.emptyKey parent)
  | delimited {c : Char} : key ≠ "" → c ∈ key.toList → isDelimiter c = true →
      Misnamed parent key (.delimiter key)

lemma checkKey_eq_error_iff {key : String} {parent : Path} {e : PathError} :
    checkKey key parent = .error e ↔ Misnamed parent key e := by
  rw [checkKey_eq_error]
  constructor
  · rintro (⟨hk, rfl⟩ | ⟨hk, ⟨c, hc, hd⟩, rfl⟩)
    · exact .empty hk
    · exact .delimited hk hc hd
  · rintro (hk | ⟨hk, hc, hd⟩)
    · exact Or.inl ⟨hk, rfl⟩
    · exact Or.inr ⟨hk, ⟨_, hc, hd⟩, rfl⟩

def nameFault? (path : Path) : Option PathError :=
  match path.getLast? with
  | some (.key name) =>
    match checkKey name path.dropLast with
    | .error e => some e
    | .ok () => none
  | _ => none

lemma nameFault?_child (parent : Path) (key : String) : nameFault? (parent.child key) =
    match checkKey key parent with
    | .error e => some e
    | .ok () => none := by
  simp [nameFault?, child]

@[simp] lemma nameFault?_nil : nameFault? [] = none := rfl

@[simp] lemma nameFault?_index (path : Path) (i : Nat) : nameFault? (path.index i) = none := by
  simp [nameFault?, index]

lemma nameFault?_child_eq_some {parent : Path} {key : String} {e : PathError} :
    nameFault? (parent.child key) = some e ↔ Misnamed parent key e := by
  rw [nameFault?_child, ← checkKey_eq_error_iff]
  cases checkKey key parent <;> simp

lemma nameFault?_child_eq_none {parent : Path} {key : String} :
    nameFault? (parent.child key) = none ↔ IsKey key := by
  rw [nameFault?_child, ← checkKey_eq_ok key parent]
  cases checkKey key parent <;> simp

lemma nameFault?_eq_some {path : Path} {e : PathError} :
    nameFault? path = some e ↔ ∃ parent key, path = child parent key ∧ Misnamed parent key e := by
  constructor
  · intro h
    cases path using List.reverseRecOn with
    | nil => exact absurd h (by simp)
    | append_singleton parent s =>
      cases s with
      | key name => exact ⟨parent, name, rfl, nameFault?_child_eq_some.mp h⟩
      | index i => exact absurd h (by simp [nameFault?])
  · rintro ⟨parent, key, rfl, h⟩
    exact nameFault?_child_eq_some.mpr h

lemma nameFault?_eq_none {path : Path} :
    nameFault? path = none ↔ ∀ parent key, path = child parent key → IsKey key := by
  constructor
  · rintro h parent key rfl
    exact nameFault?_child_eq_none.mp h
  · intro h
    cases path using List.reverseRecOn with
    | nil => rfl
    | append_singleton parent s =>
      cases s with
      | key name => exact nameFault?_child_eq_none.mpr (h parent name rfl)
      | index i => exact nameFault?_index parent i

lemma behind_tailChars {path : Path} (h : ∀ s ∈ path, ValidStep s) : Behind (tailChars path) path := by
  induction path with
  | nil => exact .nothing
  | cons s path ih =>
    obtain ⟨hs, hp⟩ := List.forall_mem_cons.mp h
    cases s with
    | key name => exact .key hs (ih hp)
    | index i =>
      have hv : valueOf (Nat.toDigits 10 i) = i := Nat.ofDigitChars_ten_toDigits
      have hb := Behind.index (isNumeral_toDigits hs) (ih hp)
      rw [hv] at hb
      simpa [tailChars, indexChars] using hb

lemma Behind.valid {cs : List Char} {path : Path} (h : Behind cs path) :
    ∀ s ∈ path, ValidStep s := by
  induction h with
  | nothing => exact fun s hs => absurd hs List.not_mem_nil
  | index hd _ ih => exact List.forall_mem_cons.mpr ⟨hd.bounded, ih⟩
  | key hk _ ih => exact List.forall_mem_cons.mpr ⟨hk, ih⟩

lemma parse_text {path : Path} (h : Readable path) : parse (text path) = .ok path := by
  obtain ⟨hf, hs⟩ := h
  match path, hf, hs with
  | .key name :: rest, _, hs =>
    obtain ⟨hk, hr⟩ := List.forall_mem_cons.mp hs
    exact parse_eq_ok.mpr
      ⟨name, tailChars rest, rest, hk, behind_tailChars hr, by simp [text, chars], rfl⟩

lemma readable_of_parse {t : String} {path : Path} (h : parse t = .ok path) : Readable path := by
  obtain ⟨name, rest, more, hk, hb, _, rfl⟩ := parse_eq_ok.mp h
  exact ⟨trivial, List.forall_mem_cons.mpr ⟨hk, hb.valid⟩⟩

lemma text_injective {p q : Path} (hp : Readable p) (hq : Readable q) (h : text p = text q) :
    p = q := by
  have hr := parse_text hp
  rw [h, parse_text hq] at hr
  exact (Except.ok.inj hr).symm

lemma isBounded_of_readable {path : Path} (h : Readable path) : isBounded path = true := by
  apply List.all_eq_true.mpr
  intro s hs
  have hv := h.steps s hs
  cases s with
  | key _ => rfl
  | index i => exact decide_eq_true hv

section Names

def ofNames (names : List String) : Path :=
  names.map .key

def dotted (names : List String) : String :=
  ".".intercalate names

@[simp] lemma child_ofNames (names : List String) (name : String) :
    child (ofNames names) name = ofNames (names ++ [name]) := by
  simp [child, ofNames]

lemma toList_dotted (first : String) (names : List String) :
    (dotted (first :: names)).toList = first.toList ++ tailChars (ofNames names) := by
  induction names generalizing first with
  | nil => simp [dotted, ofNames, tailChars]
  | cons name rest ih =>
    have hr : (".".intercalate (name :: rest)).toList = name.toList ++ tailChars (ofNames rest) :=
      ih name
    rw [dotted, String.intercalate_cons_cons, String.toList_append, String.toList_append, hr]
    simp [ofNames, tailChars]

lemma text_ofNames (names : List String) : text (ofNames names) = dotted names := by
  cases names with
  | nil => rfl
  | cons name rest =>
    apply String.toList_injective
    rw [toList_dotted, text, String.toList_ofList]
    rfl

lemma readable_ofNames {names : List String} (hne : names ≠ []) (h : ∀ n ∈ names, IsKey n) :
    Readable (ofNames names) := by
  refine ⟨?_, ?_⟩
  · cases names with
    | nil => exact absurd rfl hne
    | cons name rest => trivial
  · intro s hs
    obtain ⟨name, hname, rfl⟩ := List.mem_map.mp hs
    exact h name hname

lemma dotted_injective {names others : List String} (hne : names ≠ []) (hne' : others ≠ [])
    (h : ∀ n ∈ names, IsKey n) (h' : ∀ n ∈ others, IsKey n) (he : dotted names = dotted others) :
    names = others := by
  rw [← text_ofNames, ← text_ofNames] at he
  have hp := text_injective (readable_ofNames hne h) (readable_ofNames hne' h') he
  exact List.map_injective_iff.mpr (fun _ _ hk => Step.key.inj hk) hp

end Names

end Path

end TreeMarkup
