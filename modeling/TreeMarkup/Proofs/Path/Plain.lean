import TreeMarkup.Proofs.Path.Text

namespace TreeMarkup.Path

def plainChars (opened : Bool) : List Char → List Char
  | [] => []
  | c :: cs =>
    if opened && c == '0' && cs.head?.any Char.isDigit then plainChars true cs
    else c :: plainChars (c == '[') cs

def plain (text : String) : String :=
  String.ofList (plainChars false text.toList)

section Numerals

variable {d : Char}

lemma toNat_of_isDigit (h : d.isDigit = true) : '0'.toNat ≤ d.toNat ∧ d.toNat - '0'.toNat < 10 := by
  obtain ⟨hl, hu⟩ := Char.isDigit_iff_toNat.mp h
  have hz : '0'.toNat = 48 := rfl
  have hn : '9'.toNat = 57 := rfl
  omega

lemma toDigits_digit (h : d.isDigit = true) : Nat.toDigits 10 (d.toNat - '0'.toNat) = [d] := by
  obtain ⟨hl, hlt⟩ := toNat_of_isDigit h
  have hn := Nat.toNat_digitChar_of_lt_ten hlt
  have hz : '0'.toNat = 48 := rfl
  have hc : (d.toNat - '0'.toNat).digitChar = d := by
    apply Char.toNat_inj.mp
    omega
  rw [Nat.toDigits_of_lt_base hlt, hc]

lemma toDigits_append {n : Nat} (hn : 0 < n) {digits : List Char}
    (hd : ∀ c ∈ digits, c.isDigit = true) :
    Nat.toDigits 10 n ++ digits = Nat.toDigits 10 (Nat.ofDigitChars 10 digits n) := by
  induction digits generalizing n with
  | nil => simp
  | cons c digits ih =>
    obtain ⟨hc, hmore⟩ := List.forall_mem_cons.mp hd
    calc Nat.toDigits 10 n ++ c :: digits
        = (Nat.toDigits 10 n ++ Nat.toDigits 10 (c.toNat - '0'.toNat)) ++ digits := by
          rw [toDigits_digit hc, List.append_assoc]
          rfl
      _ = Nat.toDigits 10 (10 * n + (c.toNat - '0'.toNat)) ++ digits := by
          rw [Nat.toDigits_append_toDigits (by omega) hn (toNat_of_isDigit hc).2]
      _ = Nat.toDigits 10 (Nat.ofDigitChars 10 (c :: digits) n) := by
          rw [ih (by omega) hmore, Nat.ofDigitChars_cons]

lemma toDigits_valueOf {digits : List Char} (hd : ∀ c ∈ d :: digits, c.isDigit = true)
    (hz : d ≠ '0') : Nat.toDigits 10 (valueOf (d :: digits)) = d :: digits := by
  obtain ⟨hdigit, hmore⟩ := List.forall_mem_cons.mp hd
  have hne : d.toNat ≠ '0'.toNat := fun h => hz (Char.toNat_inj.mp h)
  have hlead : 0 < d.toNat - '0'.toNat := by
    have hl := (toNat_of_isDigit hdigit).1
    omega
  rw [valueOf, Nat.ofDigitChars_cons, Nat.mul_zero, Nat.zero_add, ← toDigits_append hlead hmore,
    toDigits_digit hdigit]
  rfl

end Numerals

lemma plainChars_append {cs : List Char} (h : '[' ∉ cs) (rest : List Char) :
    plainChars false (cs ++ rest) = cs ++ plainChars false rest := by
  induction cs with
  | nil => rfl
  | cons c cs ih =>
    obtain ⟨hc, hcs⟩ := not_or.mp fun hm => h (List.mem_cons.mpr hm)
    have hb : (c == '[') = false := beq_eq_false_iff_ne.mpr (Ne.symm hc)
    simp [plainChars, hb, ih hcs]

lemma not_mem_of_isDigit {digits : List Char} (h : ∀ c ∈ digits, c.isDigit = true) : '[' ∉ digits :=
  fun hm => absurd (h _ hm) (by decide)

lemma plainChars_numeral {digits : List Char} (hne : digits ≠ [])
    (hd : ∀ c ∈ digits, c.isDigit = true) (rest : List Char) :
    plainChars true (digits ++ ']' :: rest) =
      Nat.toDigits 10 (valueOf digits) ++ ']' :: plainChars false rest := by
  induction digits with
  | nil => exact absurd rfl hne
  | cons d digits ih =>
    obtain ⟨hdigit, hmore⟩ := List.forall_mem_cons.mp hd
    have hopen : (d == '[') = false :=
      beq_eq_false_iff_ne.mpr fun he => absurd (he ▸ hdigit) (by decide)
    cases digits with
    | nil =>
      -- The last digit stays, be it a zero or not.
      have ht : Nat.toDigits 10 (valueOf [d]) = [d] := by
        simpa [valueOf, Nat.ofDigitChars_cons] using toDigits_digit hdigit
      rw [ht]
      simp [plainChars, hopen]
    | cons e more =>
      by_cases hz : d = '0'
      · subst hz
        have hv : valueOf ('0' :: e :: more) = valueOf (e :: more) := by
          simp [valueOf, Nat.ofDigitChars_cons]
        rw [hv, ← ih (by simp) hmore]
        simp [plainChars, hmore e List.mem_cons_self]
      · have hkept : plainChars true (d :: (e :: more ++ ']' :: rest)) =
            d :: plainChars false (e :: more ++ ']' :: rest) := by
          rw [plainChars, hopen]
          simp [hz]
        have hclose : plainChars false (']' :: rest) = ']' :: plainChars false rest := by
          simp [plainChars]
        rw [toDigits_valueOf hd hz, List.cons_append, hkept,
          plainChars_append (not_mem_of_isDigit hmore), hclose]
        rfl

lemma IsKey.not_mem {name : String} (h : IsKey name) : '[' ∉ name.toList :=
  fun hm => absurd (h.2 _ hm) (by decide)

lemma Behind.plainChars_eq {cs : List Char} {path : Path} (h : Behind cs path) :
    plainChars false cs = tailChars path := by
  induction h with
  | nothing => rfl
  | @index digits rest path hd _ ih =>
    have hn := plainChars_numeral hd.nonempty hd.isDigit rest
    simp [plainChars, hn, ih, tailChars, indexChars]
  | @key name rest path hk _ ih =>
    have hn := plainChars_append hk.not_mem rest
    simp [plainChars, hn, ih, tailChars]

lemma text_of_parse {t : String} {path : Path} (h : parse t = .ok path) : text path = plain t := by
  obtain ⟨name, rest, more, hk, hb, ht, rfl⟩ := parse_eq_ok.mp h
  rw [text, plain, ht, plainChars_append hk.not_mem, hb.plainChars_eq]
  rfl

lemma readable_iff {path : Path} : Readable path ↔ path ≠ [] ∧ startsWithKey path ∧
    (∀ name, .key name ∈ path → IsKey name) ∧ ∀ i, .index i ∈ path → i ≤ maxIndex := by
  constructor
  · rintro ⟨hf, hs⟩
    refine ⟨?_, hf, fun name hm => hs _ hm, fun i hm => hs _ hm⟩
    rintro rfl
    exact hf
  · rintro ⟨_, hf, hk, hi⟩
    refine ⟨hf, ?_⟩
    intro s hs
    cases s with
    | key name => exact hk name hs
    | index i => exact hi i hs

/-- The text of a path is read as this path exactly if a key comes first, all keys are keys and all
indices are in range. The text of what is read from a text is the plain form of that text; so two texts
are read as one path exactly if they have one plain form. -/
theorem text_parse_inverse :
    (∀ path, parse (text path) = .ok path ↔ path ≠ [] ∧ startsWithKey path ∧
      (∀ name, .key name ∈ path → IsKey name) ∧ ∀ i, .index i ∈ path → i ≤ maxIndex) ∧
    (∀ t path, parse t = .ok path → text path = plain t) ∧
    ∀ s t p q, parse s = .ok p → parse t = .ok q → (p = q ↔ plain s = plain t) := by
  refine ⟨fun path => ?_, fun t path => text_of_parse, ?_⟩
  · rw [← readable_iff]
    exact ⟨readable_of_parse, parse_text⟩
  · intro s t p q hp hq
    rw [← text_of_parse hp, ← text_of_parse hq]
    exact ⟨congrArg text, text_injective (readable_of_parse hp) (readable_of_parse hq)⟩

example : plain "rows00[007][0].b[00]" = "rows00[7][0].b[0]" := by rfl

def rowPath : Path := [.key "rows", .index 7, .index 0, .key "b"]

theorem text_parse_inverse_row : parse "rows[007][0].b" = .ok rowPath ∧
    parse "rows[7][00].b" = .ok rowPath ∧ parse (text rowPath) = .ok rowPath ∧
    text rowPath = plain "rows[007][0].b" ∧ plain "rows[007][0].b" = plain "rows[7][00].b" ∧
    plain "rows[007][0].b" = "rows[7][0].b" ∧ text [.key "a.b"] = "a.b" ∧
    parse (text [.key "a.b"]) ≠ .ok [.key "a.b"] := by
  have hp : parse "rows[007][0].b" = .ok rowPath := rfl
  have hq : parse "rows[7][00].b" = .ok rowPath := rfl
  obtain ⟨hback, htext, hsame⟩ := text_parse_inverse
  have hrow : parse (text rowPath) = .ok rowPath := by
    apply (hback rowPath).mpr
    simp [rowPath, startsWithKey, IsKey, isDelimiter, maxIndex]
  refine ⟨hp, hq, hrow, htext _ _ hp, (hsame _ _ _ _ hp hq).mp rfl, rfl, rfl, ?_⟩
  intro h
  have hk := ((hback _).mp h).2.2.1 "a.b" List.mem_cons_self
  exact absurd (hk.2 '.' (by decide)) (by decide)

end TreeMarkup.Path
