/-!
The directory that a project lives in: its files and folders, and what the operating system answers to
requests about them. Folders above the project are known to exist, and nothing else outside it is.

Two things are assumed of the file system. A write or a new folder that it refuses leaves everything as
it was, although a real write empties the file before it fills it and a device can fail in between. And
what lies outside `home` cannot be changed; with `home` at the root, nothing lies outside.
-/

namespace TreeMarkup.Project

inductive OsError where
  | notFound
  | denied
  | exists
  | notAFolder
  | isAFolder
deriving DecidableEq, Repr

def OsError.message : OsError → String
  | .notFound => "No such file or directory (os error 2)"
  | .denied => "Permission denied (os error 13)"
  | .exists => "File exists (os error 17)"
  | .notAFolder => "Not a directory (os error 20)"
  | .isAFolder => "Is a directory (os error 21)"

abbrev Location := List String

/-- Files and folders are located from `home`, which itself is located from the root. -/
structure Directory where
  home : Location
  files : List (Location × String)
  folders : List Location
deriving DecidableEq, Repr

def partsFrom (part : List Char) : List Char → List String
  | [] => [String.ofList part.reverse]
  | c :: cs =>
    if c = '/' then String.ofList part.reverse :: partsFrom [] cs else partsFrom (c :: part) cs

def parts (name : String) : List String :=
  partsFrom [] name.toList

def join (cwd name : String) : String :=
  if name.toList.head? = some '/' then name else cwd ++ "/" ++ name

def isStill (part : String) : Bool :=
  part == "" || part == "."

namespace Directory

def inside? (d : Directory) (loc : Location) : Option Location :=
  if d.home.isPrefixOf loc then some (loc.drop d.home.length) else none

def content? (d : Directory) (loc : Location) : Option String :=
  (d.inside? loc).bind fun loc => d.files.lookup loc

def isFolder (d : Directory) (loc : Location) : Bool :=
  loc.isPrefixOf d.home || (d.inside? loc).any fun loc => d.folders.contains loc

def step (loc : Location) (part : String) : Location :=
  if isStill part then loc
  else if part == ".." then loc.dropLast
  else loc ++ [part]

def walk (d : Directory) (loc : Location) : List String → Except OsError Location
  | [] => .ok loc
  | part :: rest =>
    if d.isFolder loc then walk d (step loc part) rest
    else .error (if (d.content? loc).isSome then .notAFolder else .notFound)

def read (d : Directory) (name : String) : Except OsError String :=
  match d.walk [] (parts name) with
  | .error e => .error e
  | .ok loc =>
    match d.content? loc with
    | some content => .ok content
    | none => .error (if d.isFolder loc then .isAFolder else .notFound)

def contains (d : Directory) (name : String) : Bool :=
  match d.walk [] (parts name) with
  | .error _ => false
  | .ok loc => (d.content? loc).isSome || d.isFolder loc

def replaceFile (loc : Location) (content : String) :
    List (Location × String) → List (Location × String)
  | [] => [(loc, content)]
  | (l, c) :: rest => if l = loc then (loc, content) :: rest else (l, c) :: replaceFile loc content rest

/-- Makes a file or replaces its content, as a whole or not at all. A name that ends in a slash is not
that of a file. -/
def write (d : Directory) (name content : String) : Except OsError Directory :=
  let names := (parts name).reverse
  let ending := names.takeWhile (· == "")
  match d.walk [] (names.drop ending.length).reverse with
  | .error e => .error e
  | .ok loc =>
    if !ending.isEmpty || d.isFolder loc then .error .isAFolder
    else match d.inside? loc with
      | none => .error .denied
      | some loc => .ok { d with files := replaceFile loc content d.files }

def makeFolder (d : Directory) (names : List String) : Except OsError Directory :=
  match d.walk [] names with
  | .error e => .error e
  | .ok loc =>
    if d.isFolder loc || (d.content? loc).isSome then .error .exists
    else match d.inside? loc with
      | none => .error .denied
      | some loc => .ok { d with folders := d.folders ++ [loc] }

def leadsToFolder (d : Directory) (names : List String) : Bool :=
  match d.walk [] names with
  | .error _ => false
  | .ok loc => d.isFolder loc

def ensureFolder (d : Directory) (names : List String) : Except OsError Directory :=
  match d.makeFolder names with
  | .ok d => .ok d
  | .error e => if d.leadsToFolder names then .ok d else .error e

def lacksParent (d : Directory) (names : List String) : Bool :=
  match d.makeFolder names with
  | .error .notFound => true
  | _ => false

def above : Location → List Location
  | [] => [[]]
  | name :: rest => [] :: (above rest).map (name :: ·)

def ofFiles (cwd : String) (files : List (String × String)) : Directory :=
  let files := files.map fun (name, content) => ((parts name).filter fun p => !isStill p, content)
  ⟨(parts cwd).filter fun p => !isStill p, files,
    (files.flatMap fun (loc, _) => above loc.dropLast).eraseDups⟩

def changes (before d : Directory) : List (String × String) :=
  (d.files.filter fun (loc, content) => before.files.lookup loc != some content).map
    fun (loc, content) => ("/".intercalate loc, content)

end Directory
end TreeMarkup.Project
