import TreeMarkup.Json.Numeral

namespace TreeMarkup.Json

def hexDigit (n : Nat) : Char :=
  Nat.digitChar (n % 16)

def escaped (c : Char) : List Char :=
  if c = '"' then ['\\', '"']
  else if c = '\\' then ['\\', '\\']
  else if c = '\x08' then ['\\', 'b']
  else if c = '\x0c' then ['\\', 'f']
  else if c = '\n' then ['\\', 'n']
  else if c = '\r' then ['\\', 'r']
  else if c = '\t' then ['\\', 't']
  else if c.toNat < 0x20 then ['\\', 'u', '0', '0', hexDigit (c.toNat / 16), hexDigit c.toNat]
  else [c]

def writeChars (out : String) (cs : List Char) : String :=
  cs.foldl String.push out

def writeString (out : String) (s : String) : String :=
  (s.toList.foldl (fun out c => writeChars out (escaped c)) (out.push '"')).push '"'

mutual

def write (out : String) : Json → String
  | .null => out ++ "null"
  | .bool b => out ++ (if b then "true" else "false")
  | .number n => out ++ n.text
  | .string s => writeString out s
  | .array ⟨items⟩ => (writeItems (out.push '[') true items).push ']'
  | .object members => (writeMembers (out.push '\x7b') true members).push '\x7d'

def writeItems (out : String) (atStart : Bool) : List Json → String
  | [] => out
  | item :: rest => writeItems (write (if atStart then out else out.push ',') item) false rest

def writeMembers (out : String) (atStart : Bool) : List (String × Json) → String
  | [] => out
  | (name, value) :: rest =>
    let out := writeString (if atStart then out else out.push ',') name
    writeMembers (write (out.push ':') value) false rest

end

def text (value : Json) : String :=
  write "" value

def newLine (out : String) (level : Nat) : String :=
  writeChars (out.push '\n') (List.replicate (2 * level) ' ')

mutual

def writePretty (out : String) (level : Nat) : Json → String
  | .array ⟨items⟩ =>
    if items.isEmpty then out ++ "[]"
    else (newLine (writePrettyItems (out.push '[') (level + 1) true items) level).push ']'
  | .object members =>
    if members.isEmpty then out ++ "\x7b\x7d"
    else (newLine (writePrettyMembers (out.push '\x7b') (level + 1) true members) level).push '\x7d'
  | .null => out ++ "null"
  | .bool b => out ++ (if b then "true" else "false")
  | .number n => out ++ n.text
  | .string s => writeString out s

def writePrettyItems (out : String) (level : Nat) (atStart : Bool) : List Json → String
  | [] => out
  | item :: rest =>
    let out := newLine (if atStart then out else out.push ',') level
    writePrettyItems (writePretty out level item) level false rest

def writePrettyMembers (out : String) (level : Nat) (atStart : Bool) : List (String × Json) → String
  | [] => out
  | (name, value) :: rest =>
    let out := writeString (newLine (if atStart then out else out.push ',') level) name
    writePrettyMembers (writePretty (out ++ ": ") level value) level false rest

end

def prettyText (value : Json) : String :=
  writePretty "" 0 value

end TreeMarkup.Json
