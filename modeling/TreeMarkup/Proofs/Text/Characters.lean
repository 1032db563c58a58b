import Mathlib.Data.List.Basic
import TreeMarkup.Markup.Tag

namespace TreeMarkup

namespace Text

def isPrintable (c : Char) : Bool :=
  0x20 ≤ c.toNat && c.toNat < 0x7f

def Printable (text : String) : Prop :=
  ∀ c ∈ text.toList, isPrintable c = true

instance (text : String) : Decidable (Printable text) :=
  List.decidableBAll (fun c => isPrintable c = true) text.toList

namespace Printable

@[simp] lemma append {s t : String} : Printable (s ++ t) ↔ Printable s ∧ Printable t := by
  simp [Printable, or_imp, forall_and]

lemma ofList {cs : List Char} (h : ∀ c ∈ cs, isPrintable c = true) : Printable (String.ofList cs) := by
  simpa [Printable] using h

lemma isPrintable_of_isDigit {c : Char} (h : c.isDigit = true) : isPrintable c = true := by
  rw [Char.isDigit, Bool.and_eq_true, decide_eq_true_eq, decide_eq_true_eq] at h
  have hlow : 48 ≤ c.toNat := h.1
  have hhigh : c.toNat ≤ 57 := h.2
  simp only [isPrintable, Bool.and_eq_true, decide_eq_true_eq]
  omega

lemma isPrintable_of_mem_toDigits {n : Nat} {c : Char} (h : c ∈ Nat.toDigits 10 n) :
    isPrintable c = true :=
  isPrintable_of_isDigit (Nat.isDigit_of_mem_toDigits (by decide) (by decide) h)

@[simp] lemma digits (n : Nat) : Printable (String.ofList (Nat.toDigits 10 n)) :=
  ofList fun _ hc => isPrintable_of_mem_toDigits hc

@[simp] lemma repr (n : Nat) : Printable (Nat.repr n) :=
  digits n

@[simp] lemma zeros (n : Nat) : Printable (Binary64.zeros n) := by
  refine ofList fun c hc => ?_
  obtain rfl := List.eq_of_mem_replicate hc
  decide

@[simp] lemma pointed (m n : Nat) : Printable (Binary64.pointed (Nat.toDigits 10 m) n) := by
  have htake : Printable (String.ofList ((Nat.toDigits 10 m).take n)) :=
    ofList fun c hc => isPrintable_of_mem_toDigits (List.mem_of_mem_take hc)
  have hdrop : Printable (String.ofList ((Nat.toDigits 10 m).drop n)) :=
    ofList fun c hc => isPrintable_of_mem_toDigits (List.mem_of_mem_drop hc)
  exact append.mpr ⟨append.mpr ⟨htake, by decide⟩, hdrop⟩

lemma magnitudeText (x : Binary64) : Printable x.magnitudeText := by
  have hwhole : Printable ".0" := by decide
  have hsmall : Printable "0." := by decide
  have hup : Printable "e+" := by decide
  have hdown : Printable "e-" := by decide
  rw [Binary64.magnitudeText]
  split
  · decide
  · dsimp only
    split
    · split
      · simp [hwhole]
      · split
        · exact pointed _ _
        · simp [hsmall]
    · split <;> split <;> simp [hup, hdown]

lemma number (n : Number) : Printable n.text := by
  have hminus : Printable "-" := by decide
  cases n with
  | whole n =>
    rw [Number.text]
    split <;> simp [hminus]
  | float x =>
    have hm := magnitudeText x
    rw [Number.text, Binary64.text]
    split <;> simp [hminus, hm]

lemma numberLiteral (n : Number) : Printable (Markup.numberLiteral n) := by
  cases n with
  | whole n => exact number (.whole n)
  | float x =>
    rw [Markup.numberLiteral]
    split
    · split
      · exact number _
      · exact number (.float x)
    · exact number (.float x)

end Printable

end Text

namespace Json

open Text

mutual

def texts : Json → List String
  | .string s => [s]
  | .array ⟨items⟩ => itemTexts items
  | .object members => memberTexts members
  | _ => []

def itemTexts : List Json → List String
  | [] => []
  | item :: rest => texts item ++ itemTexts rest

def memberTexts : List (String × Json) → List String
  | [] => []
  | (name, value) :: rest => name :: (texts value ++ memberTexts rest)

end

/-- One of the texts holds the character, and no escape is written for it. -/
def Holds (c : Char) (texts : List String) : Prop :=
  0x20 ≤ c.toNat ∧ ∃ text ∈ texts, c ∈ text.toList

section Written

variable {c : Char}

@[simp] lemma not_holds_nil : ¬Holds c [] := by
  simp [Holds]

@[simp] lemma holds_cons {text : String} {texts : List String} :
    Holds c (text :: texts) ↔ (0x20 ≤ c.toNat ∧ c ∈ text.toList) ∨ Holds c texts := by
  simp [Holds, and_or_left]

@[simp] lemma holds_append {first second : List String} :
    Holds c (first ++ second) ↔ Holds c first ∨ Holds c second := by
  simp [Holds, or_and_right, exists_or, and_or_left]

lemma toList_writeChars (out : String) (cs : List Char) :
    (writeChars out cs).toList = out.toList ++ cs := by
  rw [writeChars]
  induction cs generalizing out with
  | nil => simp
  | cons c cs ih => simp [ih]

lemma toList_writeString (out s : String) :
    (writeString out s).toList = out.toList ++ '"' :: (s.toList.flatMap escaped ++ ['"']) := by
  have hs : ∀ (cs : List Char) (out : String),
      (cs.foldl (fun out c => writeChars out (escaped c)) out).toList =
        out.toList ++ cs.flatMap escaped := by
    intro cs
    induction cs with
    | nil => simp
    | cons c cs ih =>
      intro out
      simp [ih, toList_writeChars]
  simp [writeString, hs]

lemma isPrintable_hexDigit (n : Nat) : isPrintable (hexDigit n) = true := by
  have hd : ∀ k < 16, isPrintable (Nat.digitChar k) = true := by decide
  exact hd (n % 16) (Nat.mod_lt n (by decide))

variable (h : isPrintable c = false)

include h

lemma ne_of_isPrintable {d : Char} (hd : isPrintable d = true) : c ≠ d := by
  rintro rfl
  exact Bool.false_ne_true (h.symm.trans hd)

lemma not_mem_printable {cs : List Char} (hc : ∀ d ∈ cs, isPrintable d = true) : c ∉ cs :=
  fun hm => Bool.false_ne_true (h.symm.trans (hc c hm))

lemma mem_push {out : String} {d : Char} (hd : isPrintable d = true) :
    c ∈ (out.push d).toList ↔ c ∈ out.toList := by
  simp [ne_of_isPrintable h hd]

lemma mem_push_comma (out : String) (atStart : Bool) :
    c ∈ (if atStart then out else out.push ',').toList ↔ c ∈ out.toList := by
  split
  · rfl
  · exact mem_push h (by decide)

lemma mem_append {out text : String} (ht : Printable text) :
    c ∈ (out ++ text).toList ↔ c ∈ out.toList := by
  have hn : c ∉ text.toList := not_mem_printable h ht
  simp [hn]

lemma mem_escaped (d : Char) : c ∈ escaped d ↔ 0x20 ≤ c.toNat ∧ c = d := by
  -- An escape prints, and what it stands for either prints itself or is below the space.
  have hescape : ∀ cs : List Char, cs.all isPrintable = true →
      (isPrintable d = true ∨ d.toNat < 0x20) → (c ∈ cs ↔ 0x20 ≤ c.toNat ∧ c = d) := by
    intro cs hcs hd
    refine ⟨fun hm => absurd hm (not_mem_printable h (List.all_eq_true.mp hcs)), ?_⟩
    rintro ⟨hlow, rfl⟩
    rcases hd with hd | hd
    · exact absurd rfl (ne_of_isPrintable h hd)
    · omega
  rw [escaped]
  split_ifs with hquote hslash hb hf hn hr ht hlow
  · exact hescape _ (by decide) (by subst hquote; decide)
  · exact hescape _ (by decide) (by subst hslash; decide)
  · exact hescape _ (by decide) (by subst hb; decide)
  · exact hescape _ (by decide) (by subst hf; decide)
  · exact hescape _ (by decide) (by subst hn; decide)
  · exact hescape _ (by decide) (by subst hr; decide)
  · exact hescape _ (by decide) (by subst ht; decide)
  · refine hescape _ ?_ (Or.inr hlow)
    have hu : ['\\', 'u', '0', '0'].all isPrintable = true := by decide
    simpa [isPrintable_hexDigit] using hu
  · rw [List.mem_singleton]
    refine ⟨?_, And.right⟩
    rintro rfl
    exact ⟨by omega, rfl⟩

lemma mem_writeString (out s : String) :
    c ∈ (writeString out s).toList ↔ c ∈ out.toList ∨ (0x20 ≤ c.toNat ∧ c ∈ s.toList) := by
  have hq : c ≠ '"' := ne_of_isPrintable h (by decide)
  simp [toList_writeString, mem_escaped h, hq, and_comm]

mutual

lemma mem_write : ∀ (value : Json) (out : String),
    c ∈ (write out value).toList ↔ c ∈ out.toList ∨ Holds c (texts value)
  | .null, out => by
    rw [write, mem_append h (by decide)]
    simp [texts]
  | .bool b, out => by
    have hb : Printable (if b then "true" else "false") := by cases b <;> decide
    rw [write, mem_append h hb]
    simp [texts]
  | .number n, out => by
    rw [write, mem_append h (Printable.number n)]
    simp [texts]
  | .string s, out => by
    simp [write, mem_writeString h, texts]
  | .array ⟨items⟩, out => by
    rw [write, mem_push h (by decide), mem_writeItems items, mem_push h (by decide), texts]
  | .object members, out => by
    rw [write, mem_push h (by decide), mem_writeMembers members, mem_push h (by decide), texts]

lemma mem_writeItems : ∀ (items : List Json) (out : String) (atStart : Bool),
    c ∈ (writeItems out atStart items).toList ↔ c ∈ out.toList ∨ Holds c (itemTexts items)
  | [], out, atStart => by
    simp [writeItems, itemTexts]
  | item :: rest, out, atStart => by
    rw [writeItems, mem_writeItems rest, mem_write item, mem_push_comma h, itemTexts, holds_append,
      or_assoc]

lemma mem_writeMembers : ∀ (members : List (String × Json)) (out : String) (atStart : Bool),
    c ∈ (writeMembers out atStart members).toList ↔ c ∈ out.toList ∨ Holds c (memberTexts members)
  | [], out, atStart => by
    simp [writeMembers, memberTexts]
  | (name, value) :: rest, out, atStart => by
    rw [writeMembers, mem_writeMembers rest, mem_write value, mem_push h (by decide),
      mem_writeString h, mem_push_comma h, memberTexts, holds_cons, holds_append, or_assoc, or_assoc]

end

lemma mem_text (value : Json) : c ∈ value.text.toList ↔ Holds c (texts value) := by
  have hw := mem_write h value ""
  simpa [text] using hw

end Written

end Json
end TreeMarkup
