import TreeMarkup.Node
import TreeMarkup.Proofs.Markup.Element
import TreeMarkup.Proofs.Text.OneLine

/-! A reader of markup that goes line by line and holds what is open on a stack. The lines of an
element take it from any place where an element may stand to the element read: `steps_lines`. -/

namespace TreeMarkup.Markup

def isBlank (c : Char) : Bool :=
  c == ' ' || c == '\t'

def isSign (c : Char) : Bool :=
  isBlank c || ['\n', '"', '=', '\x7b', '\x7d', '<', '>', '/'].contains c

def isNameChar (c : Char) : Bool :=
  !isSign c

def IsName (name : String) : Prop :=
  name ≠ "" ∧ ∀ c ∈ name.toList, isNameChar c = true

def isName (name : String) : Bool :=
  !name.isEmpty && name.toList.all isNameChar

lemma isName_eq_true {name : String} : isName name = true ↔ IsName name := by
  simp [isName, IsName]

inductive Frame where
  | tag (name : String) (attributes : List (String × Form Element))
  | body (name : String) (attributes : List (String × Form Element)) (children : List Element)
  | block (key : String) (inner : Option Element)

namespace Reader

def deliver (e : Element) : List Frame → Option (List Frame)
  | .body name attributes children :: stack =>
    some (.body name attributes (children ++ [e]) :: stack)
  | .block key none :: stack => some (.block key (some e) :: stack)
  | _ => none

def attach (key : String) (form : Form Element) : List Frame → Option (List Frame)
  | .tag name attributes :: stack => some (.tag name (attributes ++ [(key, form)]) :: stack)
  | _ => none

def form (key : String) : List Char → Option (Form Element)
  | [] => some .bare
  | '=' :: '"' :: text => some (.text (String.ofList text.dropLast))
  | '=' :: '\x7b' :: text =>
    if Node.isComponentName key then some (.reference (String.ofList text.dropLast))
    else some (.literal (String.ofList text.dropLast))
  | _ => none

def inTag (name : String) (attributes : List (String × Form Element)) (stack : List Frame)
    (line : List Char) : Option (List Frame) :=
  if line = ['/', '>'] then deliver ⟨name, attributes, none⟩ stack
  else if line = ['>'] then some (.body name attributes [] :: stack)
  else
    let key := String.ofList (line.takeWhile isNameChar)
    let value := line.dropWhile isNameChar
    if value = ['=', '\x7b'] then some (.block key none :: .tag name attributes :: stack)
    else (form key value).bind fun f => attach key f (.tag name attributes :: stack)

def begin (name : String) (stack : List Frame) : List Char → Option (List Frame)
  | [] => some (.tag name [] :: stack)
  | ['>'] => some (.body name [] [] :: stack)
  | ['/', '>'] => deliver ⟨name, [], none⟩ stack
  | _ => none

def openTag (stack : List Frame) : List Char → Option (List Frame)
  | '<' :: line =>
    begin (String.ofList (line.takeWhile isNameChar)) stack (line.dropWhile isNameChar)
  | _ => none

def closing (name : String) : List Char :=
  '<' :: '/' :: (name.toList ++ ['>'])

def step : List Frame → List Char → Option (List Frame)
  | .tag name attributes :: stack, line => inTag name attributes stack line
  | .block key (some e) :: stack, line =>
    if line = ['\x7d'] then attach key (.block e) stack else none
  | .body name attributes children :: stack, line =>
    if line = closing name then deliver ⟨name, attributes, some children⟩ stack
    else openTag (.body name attributes children :: stack) line
  | stack, line => openTag stack line

def steps (stack : List Frame) (lines : List (List Char)) : Option (List Frame) :=
  lines.foldlM step stack

end Reader

def read (markup : String) : Option (Option Element) :=
  if markup.isEmpty then some none
  else
    match Reader.steps [.block "" none]
      ((markup.toList.splitOn '\n').map fun line => line.dropWhile isBlank) with
    | some [.block _ (some e)] => some (some e)
    | _ => none

section Names

lemma ends_name {sign : Char} (h : isNameChar sign = false) (rest : List Char) :
    ∀ c, (sign :: rest).head? = some c → isNameChar c = false := by
  rintro c ⟨⟩
  exact h

variable {name : String} (h : IsName name)

include h

lemma takeWhile_name {rest : List Char} (hr : ∀ c, rest.head? = some c → isNameChar c = false) :
    (name.toList ++ rest).takeWhile isNameChar = name.toList := by
  rw [List.takeWhile_append_of_pos h.2]
  cases rest with
  | nil => simp
  | cons c rest => simp [hr c rfl]

lemma dropWhile_name {rest : List Char} (hr : ∀ c, rest.head? = some c → isNameChar c = false) :
    (name.toList ++ rest).dropWhile isNameChar = rest := by
  rw [List.dropWhile_append_of_pos h.2]
  cases rest with
  | nil => simp
  | cons c rest => simp [hr c rfl]

lemma IsName.toList_eq_cons : ∃ c cs, name.toList = c :: cs ∧ isNameChar c = true := by
  cases hl : name.toList with
  | nil => exact absurd (String.toList_eq_nil_iff.mp hl) h.1
  | cons c cs => exact ⟨c, cs, rfl, h.2 c (by simp [hl])⟩

lemma name_append_ne {sign : Char} (hs : isNameChar sign = false) (value rest : List Char) :
    name.toList ++ value ≠ sign :: rest := by
  obtain ⟨c, cs, hc, hn⟩ := h.toList_eq_cons
  intro he
  rw [hc] at he
  rw [(List.cons.inj he).1, hs] at hn
  exact Bool.false_ne_true hn

end Names

namespace Element

mutual

/-- What the reader asks of an element: names without signs, texts on one line, and each pair of
braces in keeping with the name before it. -/
def Clear : Element → Prop
  | ⟨name, attributes, none⟩ => IsName name ∧ ClearAttributes attributes
  | ⟨name, attributes, some children⟩ =>
    IsName name ∧ ClearAttributes attributes ∧ ClearChildren children

def ClearAttributes : List (String × Form Element) → Prop
  | [] => True
  | (key, form) :: rest => (IsName key ∧ ClearForm key form) ∧ ClearAttributes rest

def ClearForm (key : String) : Form Element → Prop
  | .bare => True
  | .text escaped => OneLine escaped
  | .literal text => OneLine text ∧ Node.isComponentName key = false
  | .reference component => IsName component ∧ Node.isComponentName key = true
  | .block inner => Clear inner

def ClearChildren : List Element → Prop
  | [] => True
  | child :: rest => Clear child ∧ ClearChildren rest

end

end Element

namespace Reader

def IsOpen : List Frame → Prop
  | .body _ _ _ :: _ => True
  | .block _ none :: _ => True
  | _ => False

section Tags

variable {name : String} (h : IsName name) {stack : List Frame} (hs : IsOpen stack)

include h in
lemma ne_closing {other : String} {line : List Char} :
    '<' :: (name.toList ++ line) ≠ closing other := by
  intro he
  exact name_append_ne h (by decide) line _ (List.cons.inj he).2

include h hs in
lemma step_open (line : List Char) :
    step stack ('<' :: (name.toList ++ line)) = openTag stack ('<' :: (name.toList ++ line)) := by
  cases stack with
  | nil => exact absurd hs (by simp [IsOpen])
  | cons frame stack =>
    cases frame with
    | tag other attributes => exact absurd hs (by simp [IsOpen])
    | body other attributes children => simp [step, ne_closing h]
    | block key inner =>
      cases inner with
      | none => rfl
      | some e => exact absurd hs (by simp [IsOpen])

include h in
lemma openTag_eq {line : List Char} (hl : ∀ c, line.head? = some c → isNameChar c = false) :
    openTag stack ('<' :: (name.toList ++ line)) =
      begin name stack line := by
  simp only [openTag, takeWhile_name h hl, dropWhile_name h hl, String.ofList_toList]

include h hs in
lemma step_selfClosed :
    step stack ("<" ++ name ++ "/>").toList = deliver ⟨name, [], none⟩ stack := by
  have hl : ("<" ++ name ++ "/>").toList = '<' :: (name.toList ++ ['/', '>']) := by simp
  rw [hl, step_open h hs, openTag_eq h (ends_name (by decide) _), begin]

include h hs in
lemma step_opened :
    step stack ("<" ++ name ++ ">").toList = some (.body name [] [] :: stack) := by
  have hl : ("<" ++ name ++ ">").toList = '<' :: (name.toList ++ ['>']) := by simp
  rw [hl, step_open h hs, openTag_eq h (ends_name (by decide) _), begin]

include h hs in
lemma step_begun : step stack ("<" ++ name).toList = some (.tag name [] :: stack) := by
  have hl : ("<" ++ name).toList = '<' :: (name.toList ++ []) := by simp
  rw [hl, step_open h hs, openTag_eq h (by simp), begin]

lemma step_closed {attributes : List (String × Form Element)} {children : List Element} :
    step (.body name attributes children :: stack) ("</" ++ name ++ ">").toList =
      deliver ⟨name, attributes, some children⟩ stack := by
  have hl : ("</" ++ name ++ ">").toList = closing name := by simp [closing]
  rw [hl, step, if_pos rfl]

lemma step_tag_selfClosed {attributes : List (String × Form Element)} :
    step (.tag name attributes :: stack) "/>".toList = deliver ⟨name, attributes, none⟩ stack := by
  have hl : "/>".toList = ['/', '>'] := by simp
  rw [hl, step, inTag, if_pos rfl]

lemma step_tag_opened {attributes : List (String × Form Element)} :
    step (.tag name attributes :: stack) ">".toList = some (.body name attributes [] :: stack) := by
  have hl : ">".toList = ['>'] := by simp
  rw [hl, step, inTag, if_neg (by simp), if_pos rfl]

end Tags

section Attributes

variable {key : String} (h : IsName key) {name : String}
  {attributes : List (String × Form Element)} {stack : List Frame}

include h

lemma step_attribute {value : List Char}
    (hv : ∀ c, value.head? = some c → isNameChar c = false) :
    step (.tag name attributes :: stack) (key.toList ++ value) =
      if value = ['=', '\x7b'] then some (.block key none :: .tag name attributes :: stack)
      else (form key value).bind fun f => attach key f (.tag name attributes :: stack) := by
  have hself : key.toList ++ value ≠ ['/', '>'] := name_append_ne h (by decide) value _
  have hopen : key.toList ++ value ≠ ['>'] := name_append_ne h (by decide) value _
  rw [step, inTag, if_neg hself, if_neg hopen]
  simp only [takeWhile_name h hv, dropWhile_name h hv, String.ofList_toList]

lemma step_bare : step (.tag name attributes :: stack) key.toList =
    some (.tag name (attributes ++ [(key, .bare)]) :: stack) := by
  have hl : key.toList = key.toList ++ [] := (List.append_nil _).symm
  rw [hl, step_attribute h (by simp)]
  simp [form, attach]

lemma step_text (text : String) :
    step (.tag name attributes :: stack) (key ++ "=\"" ++ text ++ "\"").toList =
      some (.tag name (attributes ++ [(key, .text text)]) :: stack) := by
  have hl : (key ++ "=\"" ++ text ++ "\"").toList =
      key.toList ++ '=' :: '"' :: (text.toList ++ ['"']) := by simp
  rw [hl, step_attribute h (ends_name (by decide) _)]
  simp [form, attach]

lemma step_braced (text : String) :
    step (.tag name attributes :: stack) (braced key text).toList =
      attach key (if Node.isComponentName key then .reference text else .literal text)
        (.tag name attributes :: stack) := by
  have hl : (braced key text).toList = key.toList ++ '=' :: '\x7b' :: (text.toList ++ ['\x7d']) := by
    simp [braced]
  have hb : '=' :: '\x7b' :: (text.toList ++ ['\x7d']) ≠ ['=', '\x7b'] := by simp
  rw [hl, step_attribute h (ends_name (by decide) _), if_neg hb]
  cases hk : Node.isComponentName key <;> simp [form, hk, attach]

lemma step_block : step (.tag name attributes :: stack) (key ++ "=\x7b").toList =
    some (.block key none :: .tag name attributes :: stack) := by
  have hl : (key ++ "=\x7b").toList = key.toList ++ ['=', '\x7b'] := by simp
  rw [hl, step_attribute h (ends_name (by decide) _), if_pos rfl]

omit h in
lemma step_unblock (e : Element) :
    step (.block key (some e) :: .tag name attributes :: stack) "\x7d".toList =
      some (.tag name (attributes ++ [(key, .block e)]) :: stack) := by
  have hl : "\x7d".toList = ['\x7d'] := by simp
  rw [hl, step, if_pos rfl, attach]

end Attributes

def contents (lines : List Line) : List (List Char) :=
  lines.map fun line => line.2.toList

lemma steps_append (stack : List Frame) (xs ys : List Line) :
    steps stack (contents (xs ++ ys)) =
      (steps stack (contents xs)).bind fun stack => steps stack (contents ys) := by
  rw [steps, contents, List.map_append, List.foldlM_append]
  rfl

lemma steps_cons (stack : List Frame) (line : Line) (ys : List Line) :
    steps stack (contents (line :: ys)) =
      (step stack line.2.toList).bind fun stack => steps stack (contents ys) := rfl

@[simp] lemma steps_nil (stack : List Frame) : steps stack (contents []) = some stack := rfl

lemma steps_singleton (stack : List Frame) (line : Line) :
    steps stack (contents [line]) = step stack line.2.toList := by
  rw [steps_cons]
  cases step stack line.2.toList <;> rfl

section Lines

variable {name : String} (h : IsName name) {stack : List Frame} (hs : IsOpen stack)
  {attributes : List (String × Form Element)} {inner : Nat}
  (ha : steps (.tag name [] :: stack) (contents (Element.attributeLines inner attributes)) =
    some (.tag name attributes :: stack))

include h hs ha

lemma steps_tagLines (depth : Nat) :
    steps stack (contents (tagLines depth name (Element.attributeLines inner attributes) "/>")) =
        deliver ⟨name, attributes, none⟩ stack ∧
      steps stack (contents (tagLines depth name (Element.attributeLines inner attributes) ">")) =
        some (.body name attributes [] :: stack) := by
  cases attributes with
  | nil =>
    simp only [tagLines, Element.attributeLines, List.isEmpty_nil, if_true, steps_singleton]
    exact ⟨step_selfClosed h hs, step_opened h hs⟩
  | cons a rest =>
    have hne : (Element.attributeLines inner (a :: rest)).isEmpty = false := by
      simp [Element.attributeLines, Element.formLines_ne_nil]
    have hl (ending : String) :
        steps stack (contents (tagLines depth name (Element.attributeLines inner (a :: rest)) ending)) =
          step (.tag name (a :: rest) :: stack) ending.toList := by
      rw [tagLines, hne, if_neg Bool.false_ne_true, steps_cons, step_begun h hs, Option.bind_some,
        steps_append, ha, Option.bind_some, steps_singleton]
    exact ⟨(hl _).trans step_tag_selfClosed, (hl _).trans step_tag_opened⟩

end Lines

-- Nothing is asked of the stack below, so that the element in a block needs no induction of its own.
mutual

lemma steps_lines : ∀ (e : Element), e.Clear → ∀ (depth : Nat) {stack : List Frame}, IsOpen stack →
    steps stack (contents (e.lines depth)) = deliver e stack
  | ⟨name, attributes, none⟩, hc, depth, stack, hs => by
    obtain ⟨hn, ha⟩ := hc
    have hr := steps_attributeLines attributes ha (depth + 1) name [] stack
    rw [Element.lines]
    exact (steps_tagLines hn hs hr depth).1
  | ⟨name, attributes, some children⟩, hc, depth, stack, hs => by
    obtain ⟨hn, ha, hk⟩ := hc
    have hr := steps_attributeLines attributes ha (depth + 1) name [] stack
    have hb := steps_childLines children hk (depth + 1) name attributes [] stack
    rw [Element.lines, steps_append, (steps_tagLines hn hs hr depth).2, Option.bind_some,
      steps_append, hb, Option.bind_some, steps_singleton, List.nil_append]
    exact step_closed

lemma steps_attributeLines : ∀ (attributes : List (String × Form Element)),
    Element.ClearAttributes attributes → ∀ (depth : Nat) (name : String)
      (before : List (String × Form Element)) (stack : List Frame),
    steps (.tag name before :: stack) (contents (Element.attributeLines depth attributes)) =
      some (.tag name (before ++ attributes) :: stack)
  | [], _, depth, name, before, stack => by
    rw [Element.attributeLines, steps_nil, List.append_nil]
  | (key, form) :: rest, hc, depth, name, before, stack => by
    obtain ⟨⟨hk, hf⟩, hr⟩ := hc
    have hform := steps_formLines form hf hk depth name before stack
    have hrest := steps_attributeLines rest hr depth name (before ++ [(key, form)]) stack
    rw [Element.attributeLines, steps_append, hform, Option.bind_some, hrest, List.append_assoc,
      List.singleton_append]

lemma steps_formLines : ∀ (form : Form Element) {key : String}, Element.ClearForm key form →
    IsName key → ∀ (depth : Nat) (name : String) (before : List (String × Form Element))
      (stack : List Frame),
    steps (.tag name before :: stack) (contents (Element.formLines depth key form)) =
      some (.tag name (before ++ [(key, form)]) :: stack)
  | .bare, key, _, hk, depth, name, before, stack => by
    rw [Element.formLines, steps_singleton]
    exact step_bare hk
  | .text escaped, key, _, hk, depth, name, before, stack => by
    rw [Element.formLines, steps_singleton]
    exact step_text hk escaped
  | .literal text, key, hf, hk, depth, name, before, stack => by
    have hn : Node.isComponentName key = false := hf.2
    rw [Element.formLines, steps_singleton, step_braced hk, hn]
    rfl
  | .reference component, key, hf, hk, depth, name, before, stack => by
    have hn : Node.isComponentName key = true := hf.2
    rw [Element.formLines, steps_singleton, step_braced hk, hn]
    rfl
  | .block inner, key, hf, hk, depth, name, before, stack => by
    have hi := steps_lines inner hf (depth + 1)
      (show IsOpen (.block key none :: .tag name before :: stack) from trivial)
    rw [Element.formLines, steps_cons, step_block hk, Option.bind_some, steps_append, hi]
    simp only [deliver, Option.bind_some, steps_singleton]
    exact step_unblock inner

lemma steps_childLines : ∀ (children : List Element), Element.ClearChildren children →
    ∀ (depth : Nat) (name : String) (attributes : List (String × Form Element))
      (before : List Element) (stack : List Frame),
    steps (.body name attributes before :: stack) (contents (Element.childLines depth children)) =
      some (.body name attributes (before ++ children) :: stack)
  | [], _, depth, name, attributes, before, stack => by
    rw [Element.childLines, steps_nil, List.append_nil]
  | child :: rest, hc, depth, name, attributes, before, stack => by
    obtain ⟨hk, hr⟩ := hc
    have hchild := steps_lines child hk depth
      (show IsOpen (.body name attributes before :: stack) from trivial)
    have hrest := steps_childLines rest hr depth name attributes (before ++ [child]) stack
    rw [Element.childLines, steps_append, hchild]
    simp only [deliver, Option.bind_some]
    rw [hrest, List.append_assoc, List.singleton_append]

end

end Reader

end TreeMarkup.Markup
