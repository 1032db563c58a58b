import TreeMarkup.Proofs.Text.Unbroken

namespace TreeMarkup

open Text

def OneLine (text : String) : Prop :=
  '\n' ∉ text.toList

namespace OneLine

@[simp] lemma append {s t : String} : OneLine (s ++ t) ↔ OneLine s ∧ OneLine t := by
  simp [OneLine]

lemma of_unbroken {text : String} (h : Unbroken text) : OneLine text :=
  h '\n' (by decide)

lemma numberLiteral (n : Number) : OneLine (Markup.numberLiteral n) :=
  of_unbroken (.of_printable (.numberLiteral n))

lemma escape (text : String) : OneLine (Text.Quoted.escape text) :=
  of_unbroken (.escape text)

lemma json (value : Json) : OneLine value.text := by
  rw [OneLine, Json.mem_text (by decide)]
  rintro ⟨hraw, _⟩
  exact absurd hraw (by decide)

end OneLine
end TreeMarkup
