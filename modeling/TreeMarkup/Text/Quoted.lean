namespace TreeMarkup.Text.Quoted

def escaped (c : Char) : List Char :=
  match c with
  | '"' => ['\\', '"']
  | '\\' => ['\\', '\\']
  | '\n' => ['\\', 'n']
  | '\r' => ['\\', 'r']
  | '\u2028' => ['\\', 'u', '2', '0', '2', '8']
  | '\u2029' => ['\\', 'u', '2', '0', '2', '9']
  | c => [c]

def encode (cs : List Char) : List Char :=
  cs.flatMap escaped

def escape (text : String) : String :=
  String.ofList (encode text.toList)

end TreeMarkup.Text.Quoted
