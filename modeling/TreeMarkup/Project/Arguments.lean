namespace TreeMarkup.Project

inductive Halt where
  | usage
  | help
  | version
deriving DecidableEq, Repr

inductive Action (σ : Type) where
  | flag (set : σ → Except Halt σ)
  | value (set : String → σ → Except Halt σ)

structure Switch (σ : Type) where
  short : Option Char
  long : String
  action : Action σ

structure Grammar (σ : Type) where
  switches : List (Switch σ)
  word : String → σ → Except Halt σ

namespace Grammar

variable {σ : Type}

def long? (g : Grammar σ) (name : String) : Option (Action σ) :=
  (g.switches.find? fun s => s.long == name).map (·.action)

def short? (g : Grammar σ) (c : Char) : Option (Action σ) :=
  (g.switches.find? fun s => s.short == some c).map (·.action)

def isSwitch (arg : String) : Bool :=
  arg.toList.head? == some '-' && arg != "-"

abbrev Reading (σ : Type) := Except Halt (σ × Option (String → σ → Except Halt σ))

def readLong (g : Grammar σ) (s : σ) (cs : List Char) : Reading σ :=
  let name := String.ofList (cs.takeWhile (· ≠ '='))
  match g.long? name, cs.dropWhile (· ≠ '=') with
  | none, _ => .error .usage
  | some (.flag set), [] => (set s).map (·, none)
  | some (.flag _), _ :: _ => .error .usage
  | some (.value set), [] => .ok (s, some set)
  | some (.value set), _ :: value => (set (String.ofList value) s).map (·, none)

def readShort (g : Grammar σ) (s : σ) : List Char → Reading σ
  | [] => .ok (s, none)
  | c :: cs =>
    match g.short? c with
    | none => .error .usage
    | some (.flag set) =>
      match set s with
      | .error e => .error e
      | .ok s => readShort g s cs
    | some (.value set) =>
      match cs with
      | [] => .ok (s, some set)
      | '=' :: value => (set (String.ofList value) s).map (·, none)
      | value => (set (String.ofList value) s).map (·, none)

def readSwitch (g : Grammar σ) (s : σ) (arg : String) : Reading σ :=
  match arg.toList with
  | '-' :: '-' :: cs => g.readLong s cs
  | _ :: cs => g.readShort s cs
  | [] => .error .usage

def words (g : Grammar σ) (s : σ) : List String → Except Halt σ
  | [] => .ok s
  | arg :: rest =>
    match g.word arg s with
    | .error e => .error e
    | .ok s => words g s rest

def read (g : Grammar σ) (s : σ) : List String → Except Halt σ
  | [] => .ok s
  | arg :: rest =>
    if arg = "--" then g.words s rest
    else if isSwitch arg then
      match g.readSwitch s arg, rest with
      | .error e, _ => .error e
      | .ok (s, none), rest => read g s rest
      | .ok (_, some _), [] => .error .usage
      | .ok (s, some set), value :: rest =>
        if isSwitch value then .error .usage
        else match set value s with
          | .error e => .error e
          | .ok s => read g s rest
    else match g.word arg s with
      | .error e => .error e
      | .ok s => read g s rest

end Grammar

def setOnce {α : Type} (given : Option α) (value : α) : Except Halt (Option α) :=
  if given.isSome then .error .usage else .ok (some value)

def setFile (given : Option String) (name : String) : Except Halt (Option String) :=
  if name.isEmpty then .error .usage else setOnce given name

structure InitRequest where
  verbose : Option Unit
  force : Option Unit
deriving DecidableEq, Repr

structure CompileRequest where
  verbose : Option Unit
  tree : Option String
  registry : Option String
  aliases : Option String
  ambient : List String
  format : Option String
  out : Option String
  indent : Option String
deriving DecidableEq, Repr

structure FlattenRequest where
  verbose : Option Unit
  input : Option String
  unflatten : Option Unit
deriving DecidableEq, Repr

inductive Command where
  | init (force : Bool)
  | compile (tree registry : String) (request : CompileRequest)
  | flatten (input : String) (unflatten : Bool)
deriving DecidableEq, Repr

structure Invocation where
  verbose : Bool
  command : Command
deriving DecidableEq, Repr

def helpSwitch {σ : Type} : Switch σ :=
  ⟨some 'h', "help", .flag fun _ => .error .help⟩

def initGrammar : Grammar InitRequest where
  switches := [
    ⟨some 'v', "verbose", .flag fun r => do return { r with verbose := ← setOnce r.verbose () }⟩,
    ⟨some 'f', "force", .flag fun r => do return { r with force := ← setOnce r.force () }⟩,
    helpSwitch]
  word := fun _ _ => .error .usage

def compileGrammar : Grammar CompileRequest where
  switches := [
    ⟨some 'v', "verbose", .flag fun r => do return { r with verbose := ← setOnce r.verbose () }⟩,
    ⟨some 'r', "registry", .value fun s r => do
      return { r with registry := ← setFile r.registry s }⟩,
    ⟨some 'a', "aliases", .value fun s r => do return { r with aliases := ← setFile r.aliases s }⟩,
    ⟨none, "ambient", .value fun s r => .ok { r with ambient := r.ambient ++ [s] }⟩,
    ⟨some 'f', "format", .value fun s r => do return { r with format := ← setOnce r.format s }⟩,
    ⟨some 'o', "out", .value fun s r => do return { r with out := ← setFile r.out s }⟩,
    ⟨none, "indent", .value fun s r => do return { r with indent := ← setOnce r.indent s }⟩,
    helpSwitch]
  word := fun s r => do return { r with tree := ← setFile r.tree s }

def flattenGrammar : Grammar FlattenRequest where
  switches := [
    ⟨some 'v', "verbose", .flag fun r => do return { r with verbose := ← setOnce r.verbose () }⟩,
    ⟨some 'u', "unflatten", .flag fun r => do
      return { r with unflatten := ← setOnce r.unflatten () }⟩,
    helpSwitch]
  word := fun s r => do return { r with input := ← setFile r.input s }

def commonGrammar : Grammar (Option Unit) where
  switches := [
    ⟨some 'v', "verbose", .flag fun v => setOnce v ()⟩,
    ⟨some 'V', "version", .flag fun _ => .error .version⟩,
    helpSwitch]
  word := fun _ _ => .error .usage

def commandNames : List String := ["init", "compile", "flatten", "help"]

namespace Command

def readInit (args : List String) : Except Halt (Option Unit × Command) := do
  let r ← initGrammar.read ⟨none, none⟩ args
  return (r.verbose, .init r.force.isSome)

def readCompile (args : List String) : Except Halt (Option Unit × Command) := do
  let r ← compileGrammar.read ⟨none, none, none, none, [], none, none, none⟩ args
  match r.tree, r.registry with
  | some tree, some registry => return (r.verbose, .compile tree registry r)
  | _, _ => .error .usage

def readFlatten (args : List String) : Except Halt (Option Unit × Command) := do
  let r ← flattenGrammar.read ⟨none, none, none⟩ args
  match r.input with
  | some input => return (r.verbose, .flatten input r.unflatten.isSome)
  | none => .error .usage

def readHelp : List String → Except Halt (Option Unit × Command)
  | [] => .error .help
  | [name] => .error (if commandNames.contains name then .help else .usage)
  | _ => .error .usage

def read (name : String) (args : List String) : Except Halt (Option Unit × Command) :=
  match name with
  | "init" => readInit args
  | "compile" => readCompile args
  | "flatten" => readFlatten args
  | "help" => readHelp args
  | _ => .error .usage

end Command

namespace Invocation

def readFrom (verbose : Option Unit) : List String → Except Halt Invocation
  | [] => .error .usage
  | arg :: rest =>
    if arg = "--" then .error .usage
    else if Grammar.isSwitch arg then
      match commonGrammar.readSwitch verbose arg with
      | .error e => .error e
      | .ok (_, some _) => .error .usage
      | .ok (verbose, none) => readFrom verbose rest
    else
      match Command.read arg rest with
      | .error e => .error e
      | .ok (inner, command) => .ok ⟨verbose.isSome || inner.isSome, command⟩

def read (args : List String) : Except Halt Invocation :=
  readFrom none args

end Invocation
end TreeMarkup.Project
