import TreeMarkup.Markup.Compiler
import TreeMarkup.Proofs.Text.Quoted

namespace TreeMarkup.Markup

open Text Text.Quoted

/-- A string reads back from its escaped text, which no other text has; it breaks no line; and it stands in
quotes of which the second is the first that a scan of it meets, whatever follows. -/
theorem string_reads_back (text : String) :
    (∀ written, unescape written = some text ↔ written = escape text) ∧
    (∀ other, escape other = escape text → other = text) ∧
    Unbroken (escape text) ∧
    (∀ rest, quoteAt (escape text ++ "\"" ++ rest).toList = some (escape text).length) ∧
    ∀ target name level path c, (serializeAttribute target (name, .string text) level path).run c =
      some (name ++ "=\"" ++ escape text ++ "\"", c) := by
  refine ⟨fun _ => unescape_eq_some, fun _ he => escape_injective he, Unbroken.escape text,
    quoteAt_escape text, ?_⟩
  intro target name level path c
  rfl

/-- A text inside the value holds a separator. Strings are written with escapes for it, objects are not. -/
def HoldsSeparator : AttributeValue Node → Prop
  | .object members => ∃ text ∈ Json.texts (.object members), ∃ c ∈ separators, c ∈ text.toList
  | _ => False

section Literals

variable {target : Target} {name : String}

lemma unbroken_braced {value : String} :
    Unbroken (braced name value) ↔ Unbroken name ∧ Unbroken value := by
  have hopen : Unbroken "=\x7b" := .of_printable (by decide)
  have hclose : Unbroken "\x7d" := .of_printable (by decide)
  simp [braced, hopen, hclose]

lemma unbroken_quoted {text : String} : Unbroken (quoted name text) ↔ Unbroken name := by
  have hopen : Unbroken "=\"" := .of_printable (by decide)
  have hclose : Unbroken "\"" := .of_printable (by decide)
  simp [quoted, hopen, hclose, Unbroken.escape]

lemma unbroken_object {members : Json.Members} :
    Unbroken (Json.object members).text ↔ ¬HoldsSeparator (.object members) := by
  simp [Unbroken.json, HoldsSeparator]

lemma HoldsSeparator.object {value : AttributeValue Node} (h : HoldsSeparator value) :
    ∃ members, value = .object members := by
  cases value with
  | object members => exact ⟨members, rfl⟩
  | _ => exact h.elim

lemma not_mem_object {c : Char} (hc : c ∈ terminators) (hs : c ∉ separators) (hn : Unbroken name)
    (members : Json.Members) : c ∉ (braced name (Json.object members).text).toList := by
  have hprint := not_isPrintable_of_terminator hc
  have htext : c ∉ (Json.object members).text.toList := by
    rw [Json.mem_text hprint]
    rintro ⟨hraw, _⟩
    exact hs ((separator_iff_raw hc).mpr hraw)
  have hopen : Printable "=\x7b" := by decide
  have hclose : Printable "\x7d" := by decide
  simp only [braced, String.toList_append, List.mem_append, not_or]
  exact ⟨⟨⟨hn c hc, Json.not_mem_printable hprint hopen⟩, htext⟩, Json.not_mem_printable hprint hclose⟩

lemma serializeAttribute_scalar {value : AttributeValue Node} (hn : Unbroken name)
    (hnode : ∀ node, value ≠ .node node) (hobject : ∀ members, value ≠ .object members)
    (hr : ∀ component, value = .reference component →
      NameMap.contains target.registry component = true → Unbroken component)
    (level : Nat) (path : Path) (c : Context) : ∃ output after,
      (serializeAttribute target (name, value) level path).run c = some (output, after) ∧
        Unbroken output := by
  have hempty : Unbroken "" := .of_printable (by decide)
  cases value with
  | node node => exact absurd rfl (hnode node)
  | object members => exact absurd rfl (hobject members)
  | string text => exact ⟨_, _, rfl, unbroken_quoted.mpr hn⟩
  | number n => exact ⟨_, _, rfl, unbroken_braced.mpr ⟨hn, .of_printable (.numberLiteral n)⟩⟩
  | null => exact ⟨_, _, rfl, unbroken_braced.mpr ⟨hn, .of_printable (by decide)⟩⟩
  | boolean b =>
    cases b with
    | true => exact ⟨_, _, rfl, hn⟩
    | false => exact ⟨_, _, rfl, unbroken_braced.mpr ⟨hn, .of_printable (by decide)⟩⟩
  | reference component =>
    cases hc : NameMap.contains target.registry component with
    | true =>
      refine ⟨braced name component, c, ?_, unbroken_braced.mpr ⟨hn, hr component rfl hc⟩⟩
      simp [serializeAttribute, attributeText, hc]
    | false =>
      have hrun : ∃ after, (serializeAttribute target (name, .reference component) level path).run c =
          some ("", after) := by
        simp only [serializeAttribute, attributeText, hc]
        exact ⟨_, rfl⟩
      obtain ⟨after, hrun⟩ := hrun
      exact ⟨"", after, hrun, hempty⟩
  | unevaluable => exact ⟨_, _, rfl, hempty⟩
  | unsupported => exact ⟨_, _, rfl, hempty⟩

end Literals

/-- What is written for a value that is no node breaks a line only by a separator in a text of an object:
never by a line feed or a carriage return, and not at all when no text in the object holds a separator. -/
theorem serializeAttribute_unbroken {target : Target} {name : String} {value : AttributeValue Node}
    (hn : Unbroken name) (hnode : ∀ node, value ≠ .node node)
    (hr : ∀ component, value = .reference component →
      NameMap.contains target.registry component = true → Unbroken component)
    (level : Nat) (path : Path) (c : Context) : ∃ output after,
      (serializeAttribute target (name, value) level path).run c = some (output, after) ∧
      ('\n' ∉ output.toList ∧ '\r' ∉ output.toList) ∧ (Unbroken output ↔ ¬HoldsSeparator value) := by
  by_cases hobject : ∃ members, value = .object members
  · obtain ⟨members, rfl⟩ := hobject
    refine ⟨_, _, rfl, ⟨not_mem_object (by decide) (by decide) hn members,
      not_mem_object (by decide) (by decide) hn members⟩, ?_⟩
    rw [unbroken_braced, unbroken_object]
    exact ⟨And.right, fun h => ⟨hn, h⟩⟩
  · rw [not_exists] at hobject
    obtain ⟨output, after, hrun, hout⟩ :=
      @serializeAttribute_scalar target name value hn hnode hobject hr level path c
    refine ⟨output, after, hrun, ⟨hout _ (by decide), hout _ (by decide)⟩, iff_of_true hout ?_⟩
    intro hs
    obtain ⟨members, hm⟩ := hs.object
    exact hobject members hm

section Style

def styleTarget : Target := ⟨[("Star", .host "Star" [])], Options.default⟩

def style : Json.Members :=
  [("font\n", .array #[.string "\r\"Sans\"", .number (.whole 4)]), ("a", .object [("b", .null)])]

def brokenStyle : Json.Members :=
  [("a", .string "\u2028")]

lemma not_holdsSeparator_style : ¬HoldsSeparator (.object style) := by
  have hall : (Json.texts (.object style)).all
      (fun text => separators.all fun c => !text.toList.contains c) = true := by
    decide +kernel
  rintro ⟨text, ht, c, hc, hin⟩
  have hnot := List.all_eq_true.mp (List.all_eq_true.mp hall text ht) c hc
  simp [hin] at hnot

lemma holdsSeparator_brokenStyle : HoldsSeparator (.object brokenStyle) :=
  ⟨"\u2028", by decide, '\u2028', by decide, by decide⟩

lemma unbroken_star : Unbroken "Star" :=
  .of_printable (by decide)

lemma unbroken_registered {component : String}
    (h : NameMap.contains styleTarget.registry component = true) : Unbroken component := by
  rw [NameMap.contains, styleTarget, NameMap.get?_cons] at h
  split at h
  · next he =>
    subst he
    exact unbroken_star
  · exact absurd h (by simp [NameMap.get?_nil])

end Style

theorem serializeAttribute_unbroken_style : Unbroken "style" ∧
    (∃ output after, (serializeAttribute styleTarget ("style", .object style) 1 []).run Context.empty =
      some (output, after) ∧ Unbroken output) ∧
    (∃ output after, (serializeAttribute styleTarget ("style", .object brokenStyle) 1 []).run
      Context.empty = some (output, after) ∧ '\n' ∉ output.toList ∧ ¬Unbroken output) ∧
    NameMap.contains styleTarget.registry "Star" = true ∧ Unbroken "Star" ∧
    ∃ output after, (serializeAttribute styleTarget ("Icon", .reference "Star") 1 []).run Context.empty =
      some (output, after) ∧ Unbroken output := by
  have hname : Unbroken "style" := .of_printable (by decide)
  have hicon : Unbroken "Icon" := .of_printable (by decide)
  obtain ⟨output, after, hrun, _, hout⟩ := @serializeAttribute_unbroken styleTarget "style"
    (.object style) hname (by simp) (by simp) 1 [] Context.empty
  obtain ⟨broken, last, hlast, hfeed, hbroken⟩ := @serializeAttribute_unbroken styleTarget "style"
    (.object brokenStyle) hname (by simp) (by simp) 1 [] Context.empty
  obtain ⟨icon, next, hnext, _, hstar⟩ := @serializeAttribute_unbroken styleTarget "Icon"
    (.reference "Star") hicon (by simp) (fun _ _ hc => unbroken_registered hc) 1 [] Context.empty
  exact ⟨hname, ⟨output, after, hrun, hout.mpr not_holdsSeparator_style⟩,
    ⟨broken, last, hlast, hfeed.1, fun h => hbroken.mp h holdsSeparator_brokenStyle⟩, by decide,
    unbroken_star, icon, next, hnext, hstar.mpr id⟩

theorem not_serializeAttribute_unbroken_brokenStyle : ¬∀ (target : Target) (name : String)
    (value : AttributeValue Node) (level : Nat) (path : Path) (c : Context) (output : String)
    (after : Context), Unbroken name → (∀ node, value ≠ .node node) →
    (∀ component, value = .reference component →
      NameMap.contains target.registry component = true → Unbroken component) →
    (serializeAttribute target (name, value) level path).run c = some (output, after) →
    Unbroken output := by
  intro h
  have hn : Unbroken "style" := .of_printable (by decide)
  have hout := h styleTarget "style" (.object brokenStyle) 1 [] Context.empty _ _ hn (by simp)
    (by simp) rfl
  exact unbroken_object.mp (unbroken_braced.mp hout).2 holdsSeparator_brokenStyle

end TreeMarkup.Markup
