import TreeMarkup.Json.Reader
import TreeMarkup.Json.Text
import TreeMarkup.Markup.Context

namespace TreeMarkup.Project

structure Config where
  indent : String
  rootAdapter : String
  aliases : Option String
deriving DecidableEq, Repr

namespace Config

open Json (Document Fault Quoted)

def default : Config :=
  ⟨Markup.Options.default.indent, Markup.Options.default.rootAdapter, none⟩

def options (c : Config) : Markup.Options := ⟨c.indent, c.rootAdapter⟩

def toJson (c : Config) : Json :=
  .object ([("indent", .string c.indent), ("rootAdapterName", .string c.rootAdapter)]
    ++ (c.aliases.map fun a => ("aliases", .string a)).toList)

structure Given where
  indent : Option String
  rootAdapter : Option String
  aliases : Option (Option String)

def Given.config (g : Given) : Config :=
  ⟨g.indent.getD default.indent, g.rootAdapter.getD default.rootAdapter, g.aliases.getD none⟩

def text : Document → Except Fault String
  | .string s => s.text?
  | _ => .error .shape

def optionalText : Document → Except Fault (Option String)
  | .null => .ok none
  | .string s => s.text?.map some
  | _ => .error .shape

def once {α : Type} (given : Option α) (value : Except Fault α) : Except Fault (Option α) :=
  if given.isSome then .error .shape else value.map some

def collect (g : Given) : List (Quoted × Document) → Except Fault Given
  | [] => .ok g
  | (name, value) :: rest => do
    match ← name.text? with
    | "indent" => collect { g with indent := ← once g.indent (text value) } rest
    | "rootAdapterName" => collect { g with rootAdapter := ← once g.rootAdapter (text value) } rest
    | "aliases" => collect { g with aliases := ← once g.aliases (optionalText value) } rest
    | _ => collect g rest

def ofItems : List Document → Except Fault Given
  | [] => .ok ⟨none, none, none⟩
  | [a] => do return ⟨← text a, none, none⟩
  | [a, b] => do return ⟨← text a, ← text b, none⟩
  | [a, b, c] => do return ⟨← text a, ← text b, some (← optionalText c)⟩
  | _ => .error .shape

def ofDocument : Document → Except Fault Config
  | .object members => (collect ⟨none, none, none⟩ members).map Given.config
  | .array items => (ofItems items).map Given.config
  | _ => .error .shape

def read (text : String) : Except Json.ReadError Config :=
  Document.readAs ofDocument text

end Config
end TreeMarkup.Project
