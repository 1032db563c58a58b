import TreeMarkup.Proofs.Text.Characters

namespace TreeMarkup.Text

def separators : List Char := ['\u2028', '\u2029']

def terminators : List Char := '\n' :: '\r' :: separators

def Unbroken (text : String) : Prop :=
  ∀ c ∈ terminators, c ∉ text.toList

lemma not_isPrintable_of_terminator {c : Char} (h : c ∈ terminators) : isPrintable c = false := by
  have hall : terminators.all (fun c => !isPrintable c) = true := by decide
  simpa using List.all_eq_true.mp hall c h

lemma separator_iff_raw {c : Char} (h : c ∈ terminators) : c ∈ separators ↔ 0x20 ≤ c.toNat := by
  have hall : terminators.all (fun c => separators.contains c == decide (0x20 ≤ c.toNat)) = true := by
    decide
  have hc := List.all_eq_true.mp hall c h
  rwa [beq_iff_eq, Bool.eq_iff_iff, List.contains_iff_mem, decide_eq_true_eq] at hc

namespace Unbroken

@[simp] lemma append {s t : String} : Unbroken (s ++ t) ↔ Unbroken s ∧ Unbroken t := by
  simp [Unbroken, forall_and]

lemma of_printable {text : String} (h : Printable text) : Unbroken text :=
  fun _ hc => Json.not_mem_printable (not_isPrintable_of_terminator hc) h

lemma escape (text : String) : Unbroken (Quoted.escape text) := by
  have hc : ∀ c ∈ terminators, ∀ d, c ∉ Quoted.escaped d := by
    intro c hc d
    simp only [terminators, separators, List.mem_cons, List.not_mem_nil, or_false] at hc
    unfold Quoted.escaped
    split <;> rcases hc with rfl | rfl | rfl | rfl <;> simp_all [eq_comm]
  intro c hm
  simpa [Quoted.escape, Quoted.encode] using fun d _ => hc c hm d

lemma json {value : Json} :
    Unbroken value.text ↔ ∀ text ∈ Json.texts value, ∀ c ∈ separators, c ∉ text.toList := by
  have hm : ∀ c ∈ terminators, (c ∈ value.text.toList ↔ Json.Holds c (Json.texts value)) :=
    fun c hc => Json.mem_text (not_isPrintable_of_terminator hc) value
  constructor
  · intro h text ht c hc hin
    have hterm : c ∈ terminators := by simp [terminators, hc]
    exact h c hterm ((hm c hterm).mpr ⟨(separator_iff_raw hterm).mp hc, text, ht, hin⟩)
  · intro h c hterm hin
    obtain ⟨hraw, text, ht, hin⟩ := (hm c hterm).mp hin
    exact h text ht c ((separator_iff_raw hterm).mpr hraw) hin

end Unbroken

end TreeMarkup.Text
