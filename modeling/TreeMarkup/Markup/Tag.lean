import TreeMarkup.Json.Text
import TreeMarkup.Text.Quoted

namespace TreeMarkup.Markup

def maxWholeFloat : Nat := 9007199254740991

def numberLiteral : Number → String
  | .whole n => (Number.whole n).text
  | .float x =>
    match x.natValue? with
    | some n =>
      if n ≤ maxWholeFloat then (Number.whole (if x.negative then -n else n)).text else x.text
    | none => x.text

def braced (name value : String) : String :=
  name ++ "=\x7b" ++ value ++ "\x7d"

def quoted (name text : String) : String :=
  name ++ "=\"" ++ Text.Quoted.escape text ++ "\""

def openingText (indent attributeIndent name : String) (attributes : List String) : String :=
  if attributes.isEmpty then indent ++ "<" ++ name
  else
    indent ++ "<" ++ name ++ "\n"
      ++ String.join (attributes.map fun a => attributeIndent ++ a ++ "\n") ++ indent

def closingText (indent name : String) : Option (List String) → String
  | none => "/>"
  | some children =>
    ">" ++ String.join (children.map fun c => "\n" ++ c) ++ "\n" ++ indent ++ "</" ++ name ++ ">"

def shown (texts : List String) : List String :=
  texts.filter fun t => !t.isEmpty

end TreeMarkup.Markup
