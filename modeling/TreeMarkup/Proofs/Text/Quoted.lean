import TreeMarkup.Proofs.Text.Unbroken

namespace TreeMarkup.Text.Quoted

/-- Undoes the escapes. A quote, a backslash or a terminator is no character of a quoted text by itself. -/
def decode : List Char → Option (List Char)
  | [] => some []
  | '\\' :: '"' :: rest => (decode rest).map ('"' :: ·)
  | '\\' :: '\\' :: rest => (decode rest).map ('\\' :: ·)
  | '\\' :: 'n' :: rest => (decode rest).map ('\n' :: ·)
  | '\\' :: 'r' :: rest => (decode rest).map ('\r' :: ·)
  | '\\' :: 'u' :: '2' :: '0' :: '2' :: '8' :: rest => (decode rest).map ('\u2028' :: ·)
  | '\\' :: 'u' :: '2' :: '0' :: '2' :: '9' :: rest => (decode rest).map ('\u2029' :: ·)
  | c :: rest =>
    if c = '"' ∨ c = '\\' ∨ c ∈ terminators then none else (decode rest).map (c :: ·)

def unescape (text : String) : Option String :=
  (decode text.toList).map String.ofList

def quoteAt : List Char → Option Nat
  | [] => none
  | '"' :: _ => some 0
  | '\\' :: _ :: rest => (quoteAt rest).map (· + 2)
  | _ :: rest => (quoteAt rest).map (· + 1)

lemma encode_cons (c : Char) (cs : List Char) : encode (c :: cs) = escaped c ++ encode cs :=
  List.flatMap_cons

lemma escaped_of_plain {c : Char} (h : ¬(c = '"' ∨ c = '\\' ∨ c ∈ terminators)) : escaped c = [c] := by
  unfold escaped
  split <;> simp_all [terminators, separators]

lemma decode_escaped (c : Char) (rest : List Char) :
    decode (escaped c ++ rest) = (decode rest).map (c :: ·) := by
  by_cases h : c = '"' ∨ c = '\\' ∨ c ∈ terminators
  · simp only [terminators, separators, List.mem_cons, List.not_mem_nil, or_false] at h
    rcases h with rfl | rfl | rfl | rfl | rfl | rfl <;> simp [escaped, decode]
  · rw [escaped_of_plain h, List.singleton_append, decode, if_neg h]
    all_goals simp_all

lemma decode_encode (cs : List Char) : decode (encode cs) = some cs := by
  induction cs with
  | nil => rfl
  | cons c cs ih =>
    rw [encode_cons, decode_escaped, ih, Option.map_some]

lemma encode_of_decode {written cs : List Char} (h : decode written = some cs) :
    written = encode cs := by
  fun_induction decode written generalizing cs with
  | case1 =>
    obtain rfl := Option.some.inj h
    rfl
  | case2 rest ih | case3 rest ih | case4 rest ih | case5 rest ih | case6 rest ih | case7 rest ih =>
    obtain ⟨ds, hd, rfl⟩ := Option.map_eq_some_iff.mp h
    rw [ih hd]
    rfl
  | case8 => exact absurd h (by simp)
  | case9 c rest _ _ _ _ _ _ hc ih =>
    obtain ⟨ds, hd, rfl⟩ := Option.map_eq_some_iff.mp h
    rw [encode_cons, escaped_of_plain hc, ih hd]
    rfl

lemma unescape_eq_some {written text : String} :
    unescape written = some text ↔ written = escape text := by
  rw [unescape, Option.map_eq_some_iff, escape]
  constructor
  · rintro ⟨cs, hd, rfl⟩
    rw [String.toList_ofList, ← encode_of_decode hd, String.ofList_toList]
  · rintro rfl
    exact ⟨text.toList, by rw [String.toList_ofList, decode_encode], String.ofList_toList⟩

lemma quoteAt_escaped (c : Char) (rest : List Char) :
    quoteAt (escaped c ++ rest) = (quoteAt rest).map (· + (escaped c).length) := by
  by_cases h : c = '"' ∨ c = '\\' ∨ c ∈ terminators
  · simp only [terminators, separators, List.mem_cons, List.not_mem_nil, or_false] at h
    rcases h with rfl | rfl | rfl | rfl | rfl | rfl <;>
      simp [escaped, quoteAt, Function.comp_def]
  · rw [escaped_of_plain h, List.singleton_append, quoteAt]
    all_goals simp_all

lemma quoteAt_encode (cs rest : List Char) :
    quoteAt (encode cs ++ rest) = (quoteAt rest).map (· + (encode cs).length) := by
  induction cs with
  | nil => simp [encode]
  | cons c cs ih =>
    rw [encode_cons, List.append_assoc, quoteAt_escaped, ih, Option.map_map, List.length_append]
    congr 1
    funext n
    simp only [Function.comp_apply]
    omega

lemma escape_injective : Function.Injective escape := by
  intro text other he
  have hread := unescape_eq_some.mpr (Eq.refl (escape text))
  exact Option.some.inj (hread.symm.trans (unescape_eq_some.mpr he))

lemma quoteAt_escape (text rest : String) :
    quoteAt (escape text ++ "\"" ++ rest).toList = some (escape text).length := by
  have hq := quoteAt_encode text.toList ('"' :: rest.toList)
  simpa [escape, quoteAt] using hq

end TreeMarkup.Text.Quoted
