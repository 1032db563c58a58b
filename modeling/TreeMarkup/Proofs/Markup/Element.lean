import Mathlib.Data.List.Basic
import TreeMarkup.Markup.Context
import TreeMarkup.Markup.Tag

namespace TreeMarkup.Markup

inductive Form (ε : Type) where
  | bare
  | text (escaped : String)
  | literal (text : String)
  | reference (component : String)
  | block (inner : ε)

structure Element where
  name : String
  attributes : List (String × Form Element)
  children : Option (List Element)

abbrev Line := Nat × String

def tagLines (depth : Nat) (name : String) (attributes : List Line) (ending : String) : List Line :=
  if attributes.isEmpty then [(depth, "<" ++ name ++ ending)]
  else (depth, "<" ++ name) :: (attributes ++ [(depth, ending)])

namespace Element

mutual

def lines (depth : Nat) : Element → List Line
  | ⟨name, attributes, none⟩ =>
    tagLines depth name (attributeLines (depth + 1) attributes) "/>"
  | ⟨name, attributes, some children⟩ =>
    tagLines depth name (attributeLines (depth + 1) attributes) ">"
      ++ (childLines (depth + 1) children ++ [(depth, "</" ++ name ++ ">")])

def attributeLines (depth : Nat) : List (String × Form Element) → List Line
  | [] => []
  | (name, form) :: rest => formLines depth name form ++ attributeLines depth rest

def formLines (depth : Nat) (name : String) : Form Element → List Line
  | .bare => [(depth, name)]
  | .text escaped => [(depth, name ++ "=\"" ++ escaped ++ "\"")]
  | .literal text => [(depth, braced name text)]
  | .reference component => [(depth, braced name component)]
  | .block inner => (depth, name ++ "=\x7b") :: (lines (depth + 1) inner ++ [(depth, "\x7d")])

def childLines (depth : Nat) : List Element → List Line
  | [] => []
  | child :: rest => lines depth child ++ childLines depth rest

end

end Element

def indented (indent : String) (line : Line) : String :=
  repeated indent line.1 ++ line.2

def layout (indent : String) (lines : List Line) : String :=
  "\n".intercalate (lines.map (indented indent))

section Layout

variable (indent : String)

lemma layout_singleton (line : Line) : layout indent [line] = indented indent line := by
  simp [layout]

lemma layout_append {xs ys : List Line} (hx : xs ≠ []) (hy : ys ≠ []) :
    layout indent (xs ++ ys) = layout indent xs ++ "\n" ++ layout indent ys := by
  simp only [layout, List.map_append]
  exact String.intercalate_append_of_ne_nil (by simpa using hx) (by simpa using hy)

lemma layout_cons (line : Line) {ys : List Line} (hy : ys ≠ []) :
    layout indent (line :: ys) = indented indent line ++ "\n" ++ layout indent ys := by
  have h := layout_append indent (List.cons_ne_nil line []) hy
  simpa [layout_singleton] using h

lemma layout_concat {xs : List Line} (hx : xs ≠ []) (line : Line) :
    layout indent (xs ++ [line]) = layout indent xs ++ "\n" ++ indented indent line := by
  rw [layout_append indent hx (by simp), layout_singleton]

lemma layout_ne_empty {line : Line} (h : line.2 ≠ "") (more : List Line) :
    layout indent (line :: more) ≠ "" := by
  cases more with
  | nil => simp [layout_singleton, indented, h]
  | cons next more => simp [layout_cons, indented]

end Layout

lemma tagLines_ne_nil (depth : Nat) (name : String) (attributes : List Line) (ending : String) :
    tagLines depth name attributes ending ≠ [] := by
  rw [tagLines]
  split <;> simp

namespace Element

lemma lines_ne_nil (depth : Nat) (e : Element) : lines depth e ≠ [] := by
  obtain ⟨name, attributes, children⟩ := e
  cases children <;> simp [lines, tagLines_ne_nil]

lemma lines_eq_cons (depth : Nat) (e : Element) :
    ∃ ending more, lines depth e = (depth, "<" ++ e.name ++ ending) :: more := by
  obtain ⟨name, attributes, children⟩ := e
  cases children with
  | none =>
    rw [lines, tagLines]
    split
    · exact ⟨"/>", [], rfl⟩
    · exact ⟨"", _, by rw [String.append_empty]⟩
  | some children =>
    rw [lines, tagLines]
    split
    · exact ⟨">", _, rfl⟩
    · exact ⟨"", _, by rw [String.append_empty, List.cons_append]⟩

lemma layout_lines_ne_empty (indent : String) (depth : Nat) (e : Element) :
    layout indent (lines depth e) ≠ "" := by
  obtain ⟨ending, more, hl⟩ := lines_eq_cons depth e
  rw [hl]
  exact layout_ne_empty indent (by simp) more

lemma formLines_ne_nil (depth : Nat) (name : String) (form : Form Element) :
    formLines depth name form ≠ [] := by
  cases form <;> simp [formLines]

def formText (indent : String) (depth : Nat) (name : String) : Form Element → String
  | .bare => name
  | .text escaped => name ++ "=\"" ++ escaped ++ "\""
  | .literal text => braced name text
  | .reference component => braced name component
  | .block inner =>
    braced name ("\n" ++ layout indent (lines (depth + 1) inner) ++ "\n" ++ repeated indent depth)

lemma layout_formLines (indent : String) (depth : Nat) (name : String) (form : Form Element) :
    layout indent (formLines depth name form) =
      repeated indent depth ++ formText indent depth name form := by
  cases form with
  | block inner =>
    have hc : lines (depth + 1) inner ++ [(depth, "\x7d")] ≠ [] := by simp
    rw [formLines, layout_cons indent _ hc, layout_concat indent (lines_ne_nil _ inner)]
    simp only [formText, indented, braced, String.append_assoc]
  | _ => simp [formLines, formText, layout_singleton, indented]

end Element
end TreeMarkup.Markup
