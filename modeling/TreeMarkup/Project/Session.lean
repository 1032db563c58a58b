import TreeMarkup.Json.Reader
import TreeMarkup.Project.Directory

namespace TreeMarkup.Project

/-- What ends a run early: a failure of the command, or a stack that is full. -/
inductive Stop where
  | failed (causes : List String)
  | overflowed
deriving DecidableEq, Repr

inductive LoadError where
  | io (error : OsError)
  | json (error : Json.ReadError)
  | other (message : String)

namespace LoadError

def message : LoadError → String
  | .io e => "IO error: " ++ e.message
  | .json e => "JSON error: " ++ e.message
  | .other message => "Generic error: " ++ message

def causes : LoadError → List String
  | .io e => [message (.io e), e.message]
  | .json e => [message (.json e), e.message]
  | .other text => [message (.other text)]

end LoadError

structure Session where
  cwd : String
  directory : Directory
  stdout : String
  stderr : String

abbrev RunM := ExceptT Stop (StateM Session)

namespace Session

def start (cwd : String) (directory : Directory) : Session :=
  ⟨cwd, directory, "", ""⟩

def fail {α : Type} (causes : List String) : RunM α :=
  throw (.failed causes)

def overflow {α : Type} : RunM α :=
  throw .overflowed

def print (line : String) : RunM Unit :=
  modify fun s => { s with stdout := s.stdout ++ line ++ "\n" }

def printError (line : String) : RunM Unit :=
  modify fun s => { s with stderr := s.stderr ++ line ++ "\n" }

def locate (name : String) : RunM String := do
  return join (← get).cwd name

def readFile (name : String) : RunM (Except OsError String) := do
  return (← get).directory.read name

def commit : Except OsError Directory → RunM Unit
  | .ok d => modify fun s => { s with directory := d }
  | .error e => fail [e.message]

def writeFile (name content : String) : RunM Unit := do
  commit ((← get).directory.write name content)

def makeFolders : List String → RunM Unit
  | [] => return ()
  | name :: above => do
    if (← get).directory.lacksParent (name :: above).reverse then makeFolders above
    commit ((← get).directory.ensureFolder (name :: above).reverse)

def writeFileWithFolders (name content : String) : RunM Unit := do
  makeFolders (((parts name).filter fun p => !isStill p).reverse.drop 1)
  writeFile name content

def loadObject (name : String) : RunM (Except LoadError Json.Members) := do
  match ← readFile name with
  | .error e => return .error (.io e)
  | .ok text =>
    match Json.read text with
    | .error e => return .error (.json e)
    | .ok (.object members) => return .ok members
    | .ok other =>
      return .error (.other (name ++ " must contain a JSON object, found " ++ other.kind))

end Session
end TreeMarkup.Project
