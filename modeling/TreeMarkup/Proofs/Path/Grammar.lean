import Mathlib.Data.List.Basic
import TreeMarkup.Path

/-! What is read as a path: items between dots, each a key with any number of indices in brackets. -/

namespace TreeMarkup

lemma map_eq_ok {ε α β : Type} {f : α → β} {x : Except ε α} {b : β} (h : x.map f = .ok b) :
    ∃ a, x = .ok a ∧ b = f a := by
  cases x with
  | error e => cases h
  | ok a => exact ⟨a, rfl, (Except.ok.inj h).symm⟩

lemma exists_ok_iff {ε α : Type} {x : Except ε α} {fault : Option ε}
    (h : ∀ e, x = .error e ↔ fault = some e) : (∃ a, x = .ok a) ↔ fault = none := by
  cases x with
  | error e => simp [(h e).mp rfl]
  | ok a =>
    have hn : fault = none := Option.eq_none_iff_forall_ne_some.mpr fun e he => nomatch (h e).mpr he
    simp [hn]

namespace Path

def IsKey (name : String) : Prop :=
  name ≠ "" ∧ ∀ c ∈ name.toList, isDelimiter c = false

def valueOf (digits : List Char) : Nat :=
  Nat.ofDigitChars 10 digits 0

structure IsNumeral (digits : List Char) : Prop where
  nonempty : digits ≠ []
  isDigit : ∀ c ∈ digits, c.isDigit = true
  bounded : valueOf digits ≤ maxIndex

lemma indexOf_eq_ok {digits : List Char} {i : Nat} :
    indexOf digits = .ok i ↔ IsNumeral digits ∧ i = valueOf digits := by
  have hv : digits.foldl (fun n d => 10 * n + (d.toNat - '0'.toNat)) 0 = valueOf digits :=
    Nat.ofDigitChars_eq_foldl.symm
  rw [indexOf]
  simp only [hv]
  by_cases hd : digits.isEmpty || !digits.all Char.isDigit
  · rw [if_pos hd]
    refine ⟨fun h => (nomatch h), fun ⟨hn, _⟩ => ?_⟩
    simp [hn.nonempty, List.all_eq_true.mpr hn.isDigit] at hd
  · rw [if_neg hd]
    simp only [Bool.or_eq_true, List.isEmpty_iff, Bool.not_eq_true', not_or, Bool.not_eq_false,
      List.all_eq_true] at hd
    by_cases hb : valueOf digits ≤ maxIndex
    · rw [if_pos hb, Except.ok.injEq]
      exact ⟨fun h => ⟨⟨hd.1, hd.2, hb⟩, h.symm⟩, fun h => h.2.symm⟩
    · rw [if_neg hb]
      exact ⟨fun h => (nomatch h), fun h => absurd h.1.bounded hb⟩

lemma isNumeral_toDigits {i : Nat} (h : i ≤ maxIndex) : IsNumeral (Nat.toDigits 10 i) := by
  refine ⟨Nat.toDigits_ne_nil, ?_, ?_⟩
  · exact fun c hc => Nat.isDigit_of_mem_toDigits (by decide) (by decide) hc
  · rwa [valueOf, Nat.ofDigitChars_ten_toDigits]

lemma IsNumeral.not_mem {digits : List Char} (h : IsNumeral digits) : ']' ∉ digits :=
  fun hm => absurd (h.isDigit _ hm) (by decide)

/-- The text behind a step, with the steps that it spells. -/
inductive Behind : List Char → Path → Prop
  | nothing : Behind [] []
  | index {digits rest : List Char} {path : Path} : IsNumeral digits → Behind rest path →
      Behind ('[' :: (digits ++ ']' :: rest)) (.index (valueOf digits) :: path)
  | key {name : String} {rest : List Char} {path : Path} : IsKey name → Behind rest path →
      Behind ('.' :: (name.toList ++ rest)) (.key name :: path)

lemma isDelimiter_eq_false {c : Char} : isDelimiter c = false ↔ c ≠ '.' ∧ c ≠ '[' ∧ c ≠ ']' := by
  simp [isDelimiter, and_assoc]

section Completeness

lemma steps_inKey (read cs rest : List Char) (h : ∀ c ∈ cs, isDelimiter c = false) :
    steps (.inKey read) (cs ++ rest) = steps (.inKey (cs.reverse ++ read)) rest := by
  induction cs generalizing read with
  | nil => rfl
  | cons c cs ih =>
    obtain ⟨hdot, hopen, hclose⟩ := isDelimiter_eq_false.mp (h c List.mem_cons_self)
    have hi := ih (c :: read) fun d hd => h d (List.mem_cons_of_mem _ hd)
    simpa [steps, hdot, hopen, hclose] using hi

lemma steps_beforeKey {name : String} (h : IsKey name) (rest : List Char) :
    steps .beforeKey (name.toList ++ rest) = steps (.inKey name.toList.reverse) rest := by
  obtain ⟨hne, hd⟩ := h
  cases hn : name.toList with
  | nil => exact absurd (String.toList_eq_nil_iff.mp hn) hne
  | cons c cs =>
    rw [hn] at hd
    obtain ⟨hdot, hopen, hclose⟩ := isDelimiter_eq_false.mp (hd c List.mem_cons_self)
    have hi := steps_inKey [c] cs rest fun d hm => hd d (List.mem_cons_of_mem _ hm)
    simpa [steps, hdot, hopen, hclose] using hi

lemma steps_inIndex (read cs rest : List Char) (h : ']' ∉ cs) :
    steps (.inIndex read) (cs ++ rest) = steps (.inIndex (cs.reverse ++ read)) rest := by
  induction cs generalizing read with
  | nil => rfl
  | cons c cs ih =>
    obtain ⟨hc, hcs⟩ := not_or.mp fun hm => h (List.mem_cons.mpr hm)
    have hi := ih (c :: read) hcs
    simpa [steps, Ne.symm hc] using hi

lemma steps_numeral {digits : List Char} (h : IsNumeral digits) (rest : List Char) :
    steps (.inIndex []) (digits ++ ']' :: rest) =
      (steps .afterIndex rest).map (.index (valueOf digits) :: ·) := by
  have hi : indexOf digits = .ok (valueOf digits) := indexOf_eq_ok.mpr ⟨h, rfl⟩
  rw [steps_inIndex [] _ _ h.not_mem]
  simp [steps, hi]

lemma steps_behind {cs : List Char} {path : Path} (h : Behind cs path) :
    (∀ read, steps (.inKey read) cs = .ok (.key (String.ofList read.reverse) :: path)) ∧
      steps .afterIndex cs = .ok path := by
  induction h with
  | nothing => exact ⟨fun _ => rfl, rfl⟩
  | @index digits rest path hd _ ih =>
    have hb := steps_numeral hd rest
    rw [ih.2] at hb
    exact ⟨fun read => by simp [steps, hb, Except.map], by simp [steps, hb, Except.map]⟩
  | @key name rest path hk _ ih =>
    have hb : steps .beforeKey (name.toList ++ rest) = .ok (.key name :: path) := by
      rw [steps_beforeKey hk, ih.1]
      simp
    exact ⟨fun read => by simp [steps, hb, Except.map], by simp [steps, hb]⟩

end Completeness

def Place.Reads : Place → List Char → Path → Prop
  | .beforeKey, cs, path => ∃ name rest more, IsKey name ∧ Behind rest more ∧
      cs = name.toList ++ rest ∧ path = .key name :: more
  | .inKey read, cs, path => ∃ name rest more, (∀ c ∈ name, isDelimiter c = false) ∧
      Behind rest more ∧ cs = name ++ rest ∧
      path = .key (String.ofList (read.reverse ++ name)) :: more
  | .inIndex read, cs, path => ∃ digits rest more, IsNumeral (read.reverse ++ digits) ∧
      Behind rest more ∧ cs = digits ++ ']' :: rest ∧
      path = .index (valueOf (read.reverse ++ digits)) :: more
  | .afterIndex, cs, path => Behind cs path

section Soundness

variable {cs : List Char} {path : Path}

lemma isKey_ofList {name : List Char} (hne : name ≠ [])
    (hd : ∀ c ∈ name, isDelimiter c = false) : IsKey (String.ofList name) := by
  refine ⟨?_, by simpa using hd⟩
  intro he
  exact hne (by simpa using congrArg String.toList he)

lemma Place.Reads.behind_dot (h : Place.beforeKey.Reads cs path) : Behind ('.' :: cs) path := by
  obtain ⟨name, rest, more, hk, hb, rfl, rfl⟩ := h
  exact .key hk hb

lemma Place.Reads.behind_bracket (h : (Place.inIndex []).Reads cs path) :
    Behind ('[' :: cs) path := by
  obtain ⟨digits, rest, more, hd, hb, rfl, rfl⟩ := h
  exact .index hd hb

-- The place tells what was read before; the induction is on the characters that are left.
lemma reads_of_steps {place : Place} (h : steps place cs = .ok path) : place.Reads cs path := by
  fun_induction steps place cs generalizing path with
  | case5 c cs hdot hopen hclose ih =>
    obtain ⟨name, rest, more, hd, hb, rfl, rfl⟩ := ih h
    have hc : isDelimiter c = false := isDelimiter_eq_false.mpr ⟨hdot, hopen, hclose⟩
    have hk : IsKey (String.ofList (c :: name)) :=
      isKey_ofList (List.cons_ne_nil c name) (List.forall_mem_cons.mpr ⟨hc, hd⟩)
    exact ⟨_, rest, more, hk, hb, by simp, rfl⟩
  | case6 read =>
    obtain rfl := Except.ok.inj h
    exact ⟨[], [], [], by simp, .nothing, rfl, by simp⟩
  | case7 read cs ih =>
    obtain ⟨more, hr, rfl⟩ := map_eq_ok h
    exact ⟨[], _, more, by simp, (ih hr).behind_dot, rfl, by simp⟩
  | case8 read cs _ ih =>
    obtain ⟨more, hr, rfl⟩ := map_eq_ok h
    exact ⟨[], _, more, by simp, (ih hr).behind_bracket, rfl, by simp⟩
  | case10 read c cs hdot hopen hclose ih =>
    obtain ⟨name, rest, more, hd, hb, rfl, rfl⟩ := ih h
    have hc : isDelimiter c = false := isDelimiter_eq_false.mpr ⟨hdot, hopen, hclose⟩
    exact ⟨c :: name, rest, more, List.forall_mem_cons.mpr ⟨hc, hd⟩, hb, rfl, by simp⟩
  | case13 read cs i hi ih =>
    obtain ⟨more, hr, rfl⟩ := map_eq_ok h
    obtain ⟨hn, rfl⟩ := indexOf_eq_ok.mp hi
    exact ⟨[], cs, more, by simpa using hn, ih hr, rfl, by simp⟩
  | case14 read c cs _ ih =>
    obtain ⟨digits, rest, more, hn, hb, rfl, rfl⟩ := ih h
    exact ⟨c :: digits, rest, more, by simpa using hn, hb, rfl, by simp⟩
  | case15 =>
    obtain rfl := Except.ok.inj h
    exact .nothing
  | case16 cs ih => exact (ih h).behind_dot
  | case17 cs _ ih => exact (ih h).behind_bracket
  | _ => exact absurd h (by simp)

end Soundness

lemma steps_eq_ok {cs : List Char} {path : Path} :
    steps .beforeKey cs = .ok path ↔ Place.beforeKey.Reads cs path := by
  refine ⟨reads_of_steps, ?_⟩
  rintro ⟨name, rest, more, hk, hb, rfl, rfl⟩
  rw [steps_beforeKey hk, (steps_behind hb).1]
  simp

lemma parse_eq_ok {text : String} {path : Path} :
    parse text = .ok path ↔ Place.beforeKey.Reads text.toList path := by
  rw [← steps_eq_ok, parse]
  by_cases he : text = ""
  · subst he
    exact ⟨fun h => (nomatch h), fun h => (nomatch h)⟩
  · rw [if_neg (mt String.isEmpty_iff.mp he)]
    cases steps .beforeKey text.toList with
    | error fault => exact ⟨fun h => (nomatch h), fun h => (nomatch h)⟩
    | ok found => simp

lemma parse_eq_error {text : String} {e : PathError} (h : parse text = .error e) :
    ∃ fault, e = .invalid text fault := by
  rw [parse] at h
  split at h
  · next fault _ =>
    obtain rfl := Except.error.inj h
    exact ⟨fault, rfl⟩
  · exact absurd h (by simp)

section Items

structure Item where
  key : String
  numerals : List (List Char)

namespace Item

def bracketed (digits : List Char) : List Char :=
  '[' :: (digits ++ [']'])

def chars (item : Item) : List Char :=
  item.key.toList ++ item.numerals.flatMap bracketed

def steps (item : Item) : Path :=
  .key item.key :: item.numerals.map fun digits => .index (valueOf digits)

structure Valid (item : Item) : Prop where
  key : IsKey item.key
  numerals : ∀ digits ∈ item.numerals, IsNumeral digits

end Item

def Spells (text : String) (path : Path) : Prop :=
  ∃ items : List Item, items ≠ [] ∧ (∀ item ∈ items, item.Valid) ∧
    text.toList = ['.'].intercalate (items.map Item.chars) ∧ path = items.flatMap Item.steps

def dottedChars (items : List Item) : List Char :=
  items.flatMap fun item => '.' :: item.chars

lemma intercalate_chars (item : Item) (items : List Item) :
    ['.'].intercalate ((item :: items).map Item.chars) = item.chars ++ dottedChars items := by
  induction items generalizing item with
  | nil => simp [dottedChars]
  | cons next items ih =>
    have hi := ih next
    simp only [List.map_cons] at hi ⊢
    rw [List.intercalate_cons_cons, hi]
    simp [dottedChars]

variable {cs : List Char} {path : Path}

lemma Behind.numerals (h : Behind cs path) {numerals : List (List Char)}
    (hn : ∀ digits ∈ numerals, IsNumeral digits) :
    Behind (numerals.flatMap Item.bracketed ++ cs)
      (numerals.map (fun digits => .index (valueOf digits)) ++ path) := by
  induction numerals with
  | nil => exact h
  | cons digits numerals ih =>
    obtain ⟨hd, hn⟩ := List.forall_mem_cons.mp hn
    simpa [Item.bracketed] using Behind.index hd (ih hn)

lemma behind_items {items : List Item} (h : ∀ item ∈ items, item.Valid) :
    Behind (dottedChars items) (items.flatMap Item.steps) := by
  induction items with
  | nil => exact .nothing
  | cons item items ih =>
    obtain ⟨hv, hi⟩ := List.forall_mem_cons.mp h
    have hb := (ih hi).numerals hv.numerals
    simpa [dottedChars, Item.chars, Item.steps] using Behind.key hv.key hb

lemma Behind.items (h : Behind cs path) : ∃ (numerals : List (List Char)) (items : List Item),
    (∀ digits ∈ numerals, IsNumeral digits) ∧ (∀ item ∈ items, item.Valid) ∧
      cs = numerals.flatMap Item.bracketed ++ dottedChars items ∧
      path = numerals.map (fun digits => .index (valueOf digits)) ++ items.flatMap Item.steps := by
  induction h with
  | nothing => exact ⟨[], [], by simp, by simp, rfl, rfl⟩
  | @index digits rest path hd _ ih =>
    obtain ⟨numerals, items, hn, hi, rfl, rfl⟩ := ih
    exact ⟨digits :: numerals, items, List.forall_mem_cons.mpr ⟨hd, hn⟩, hi,
      by simp [Item.bracketed], by simp⟩
  | @key name rest path hk _ ih =>
    obtain ⟨numerals, items, hn, hi, rfl, rfl⟩ := ih
    exact ⟨[], ⟨name, numerals⟩ :: items, by simp, List.forall_mem_cons.mpr ⟨⟨hk, hn⟩, hi⟩,
      by simp [dottedChars, Item.chars], by simp [Item.steps]⟩

lemma reads_iff_spells {text : String} :
    Place.beforeKey.Reads text.toList path ↔ Spells text path := by
  refine ⟨?_, ?_⟩
  · rintro ⟨name, rest, more, hk, hb, ht, rfl⟩
    obtain ⟨numerals, items, hn, hi, rfl, rfl⟩ := hb.items
    refine ⟨⟨name, numerals⟩ :: items, by simp, List.forall_mem_cons.mpr ⟨⟨hk, hn⟩, hi⟩, ?_, ?_⟩
    · rw [ht, intercalate_chars]
      simp [Item.chars]
    · simp [Item.steps]
  · rintro ⟨items, hne, hv, ht, rfl⟩
    cases items with
    | nil => exact absurd rfl hne
    | cons item items =>
      obtain ⟨hitem, hitems⟩ := List.forall_mem_cons.mp hv
      have hb := (behind_items hitems).numerals hitem.numerals
      refine ⟨item.key, _, _, hitem.key, hb, ?_, ?_⟩
      · rw [ht, intercalate_chars]
        simp [Item.chars]
      · simp [Item.steps]

end Items

/-- A text is read as a path exactly if it is one or more items with dots between them, and then as the
keys and the indices of these items in their order. Any other text is refused and named. -/
theorem parse_iff_spells (text : String) :
    (∀ path, parse text = .ok path ↔ Spells text path) ∧
      ((∃ fault, parse text = .error (.invalid text fault)) ↔ ∀ path, ¬Spells text path) := by
  have hok : ∀ path, parse text = .ok path ↔ Spells text path :=
    fun path => parse_eq_ok.trans reads_iff_spells
  refine ⟨hok, ?_, ?_⟩
  · rintro ⟨fault, he⟩ path hs
    have hp := (hok path).mpr hs
    exact absurd (he.symm.trans hp) (by simp)
  · intro hn
    cases hp : parse text with
    | ok path => exact absurd ((hok path).mp hp) (hn path)
    | error e =>
      obtain ⟨fault, rfl⟩ := parse_eq_error hp
      exact ⟨fault, rfl⟩

example : parse "rows[007][1].b" = .ok [.key "rows", .index 7, .index 1, .key "b"] := by rfl

end Path

end TreeMarkup
