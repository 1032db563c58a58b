import TreeMarkup.Json.Text

namespace TreeMarkup

inductive Severity where
  | error
  | warning
  | info
deriving DecidableEq, Repr

inductive DiagnosticKind where
  | unresolvedComponent
  | unevaluableAttribute
  | reservedNameCollision
  | malformedInput
deriving DecidableEq, Repr

/-- `path` is the text of the location of the node in question, empty for the root. -/
structure Diagnostic where
  severity : Severity
  kind : DiagnosticKind
  message : String
  path : Option String
deriving DecidableEq, Repr

def Severity.word : Severity → String
  | .error => "error"
  | .warning => "warning"
  | .info => "info"

def Severity.all : List Severity := [.error, .warning, .info]

namespace DiagnosticKind

def word : DiagnosticKind → String
  | .unresolvedComponent => "unresolvedComponent"
  | .unevaluableAttribute => "unevaluableAttribute"
  | .reservedNameCollision => "reservedNameCollision"
  | .malformedInput => "malformedInput"

def title : DiagnosticKind → String
  | .unresolvedComponent => "UnresolvedComponent"
  | .unevaluableAttribute => "UnevaluableAttribute"
  | .reservedNameCollision => "ReservedNameCollision"
  | .malformedInput => "MalformedInput"

def all : List DiagnosticKind :=
  [.unresolvedComponent, .unevaluableAttribute, .reservedNameCollision, .malformedInput]

end DiagnosticKind

namespace Diagnostic

def error (kind : DiagnosticKind) (message : String) : Diagnostic :=
  ⟨.error, kind, message, none⟩

def warning (kind : DiagnosticKind) (message : String) : Diagnostic :=
  ⟨.warning, kind, message, none⟩

def located (d : Diagnostic) (path : String) : Diagnostic :=
  { d with path := some path }

def isError (d : Diagnostic) : Bool := d.severity == .error
def isWarning (d : Diagnostic) : Bool := d.severity == .warning

def display (d : Diagnostic) : String :=
  match d.path with
  | none => d.message
  | some path => if path.isEmpty then d.message else d.message ++ " (at `" ++ path ++ "`)"

def toJson (d : Diagnostic) : Json :=
  .object ([("level", .string d.severity.word), ("kind", .string d.kind.word),
    ("message", .string d.message)] ++ (d.path.map fun p => ("path", .string p)).toList)

def choice? {α : Type} (word : α → String) (all : List α) : Json → Option α
  | .string s => all.find? fun a => word a == s
  | .object [(s, .null)] => all.find? fun a => word a == s
  | _ => none

def optionalText? : Option Json → Option (Option String)
  | none | some .null => some none
  | some (.string s) => some (some s)
  | some _ => none

def ofFields? (level kind message : Json) (path : Option Json) : Option Diagnostic := do
  return {
    severity := ← choice? Severity.word Severity.all level
    kind := ← choice? DiagnosticKind.word DiagnosticKind.all kind
    message := ← message.string?
    path := ← optionalText? path }

def ofJson? : Json → Option Diagnostic
  | .object members => do
    ofFields? (← Fields.get? members "level") (← Fields.get? members "kind")
      (← Fields.get? members "message") (Fields.get? members "path")
  | .array ⟨[level, kind, message, path]⟩ => ofFields? level kind message (some path)
  | _ => none

end Diagnostic
end TreeMarkup
