import TreeMarkup.Json.Reader

namespace TreeMarkup.Project

inductive AmbientError where
  | notAPair (pair : String)
  | emptyKey (pair : String)
deriving DecidableEq, Repr

def AmbientError.message : AmbientError → String
  | .notAPair pair => "Ambient attribute `" ++ pair ++ "` must look like KEY=VALUE"
  | .emptyKey pair => "Ambient attribute `" ++ pair ++ "` has an empty key"

def splitPair (pair : String) : Option (String × String) :=
  let cs := pair.toList
  match cs.dropWhile (· ≠ '=') with
  | [] => none
  | _ :: value => some (String.ofList (cs.takeWhile (· ≠ '=')), String.ofList value)

def ambientValue (text : String) : Json :=
  match Json.read text with
  | .ok value => value
  | .error _ => .string text

def readAmbient (pair : String) : Except AmbientError (String × Json) :=
  match splitPair pair with
  | none => .error (.notAPair pair)
  | some (key, text) =>
    if key.isEmpty then .error (.emptyKey pair) else .ok (key, ambientValue text)

def readAmbients (pairs : List String) : Except AmbientError (Fields Json) :=
  (pairs.mapM readAmbient).map Fields.ofList

end TreeMarkup.Project
