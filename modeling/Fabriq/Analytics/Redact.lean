import Mathlib.Data.List.Dedup
import Mathlib.Data.List.Sort
import Mathlib.Data.String.Basic
import Fabriq.Lib.Assoc

namespace Fabriq.Analytics.Redact

open Lib.Assoc

/-- The bytes of a JSON value.  An object comes with the map that `json.Unmarshal` makes of
its bytes. -/
inductive Raw
  | leaf (text : String)
  | object (text : String) (members : List (String × Raw))

def Raw.text : Raw → String
  | .leaf text => text
  | .object text _ => text

inductive Out
  | raw (value : Raw)
  | map (members : List (String × Out))

/-- What the encoding leaves to the libraries: a JSON string, and the hex digits of SHA-256. -/
structure Codec where
  quote : String → String
  digest : String → String

/-- `null` unmarshals into a map without members. -/
def parseObject : Raw → Option (List (String × Raw))
  | .object _ members => some members
  | .leaf text => if text = "null" ∨ text = "" then some [] else none

def splitPath (path : String) : List String :=
  (path.toList.splitOn '.').map String.ofList

/-- `getPath`, which looks at the last segment without parsing its value. -/
def getPath : List (String × Raw) → List String → Option Raw
  | _, [] => none
  | top, [seg] => top.lookup seg
  | top, seg :: next :: rest =>
    (top.lookup seg).bind fun v => (parseObject v).bind fun members =>
      getPath members (next :: rest)

mutual

def convert : Raw → Out
  | .leaf text => .raw (.leaf text)
  | .object _ members => .map (deepConvert members)

def deepConvert : List (String × Raw) → List (String × Out)
  | [] => []
  | (k, v) :: rest => (k, convert v) :: deepConvert rest

end

/-- The map that a step into a field finds there; `none` when there is no object. -/
def asMap : Option Out → Option (List (String × Out))
  | some (.map members) => some members
  | some (.raw (.object _ members)) => some (deepConvert members)
  | some (.raw (.leaf _)) => none
  | none => none

def setPath : List (String × Out) → List String → Raw → List (String × Out)
  | out, [], _ => out
  | out, [seg], v => put out seg (.raw v)
  | out, seg :: next :: rest, v =>
    put out seg (.map (setPath ((asMap (out.lookup seg)).getD []) (next :: rest) v))

def deletePath : List (String × Out) → List String → List (String × Out)
  | out, [] => out
  | out, [seg] => drop out seg
  | out, seg :: next :: rest =>
    match asMap (out.lookup seg) with
    | some child => put out seg (.map (deletePath child (next :: rest)))
    | none => out

section

variable (codec : Codec)

def joinComma : List String → String
  | [] => ""
  | [part] => part
  | part :: next :: rest => part ++ "," ++ joinComma (next :: rest)

def joinMembers (members : List (String × String)) : String :=
  "\x7b" ++ joinComma (((members.map Prod.fst).dedup.insertionSort (· ≤ ·)).map fun k =>
    codec.quote k ++ ":" ++ (members.lookup k).getD "") ++ "\x7d"

mutual

def marshal : Out → String
  | .raw v => v.text
  | .map members => joinMembers codec (marshalMembers members)

def marshalMembers : List (String × Out) → List (String × String)
  | [] => []
  | (k, v) :: rest => (k, marshal v) :: marshalMembers rest

end

def marshalCanonical (out : List (String × Out)) : String :=
  marshal codec (.map out)

end

structure AnalyticsSpec where
  included : List String
  includeAll : Bool
  excluded : List String
  hashed : List String

inductive Error
  | needsSalt
  | notObject
  deriving DecidableEq

section

variable (codec : Codec) (spec : AnalyticsSpec) (salt : String)

def hashValue (v : Raw) : Raw :=
  .leaf (codec.quote (codec.digest (salt ++ "\x00" ++ v.text)))

def copyPath (top : List (String × Raw)) (f : Raw → Raw) (out : List (String × Out))
    (path : String) : List (String × Out) :=
  match getPath top (splitPath path) with
  | some v => setPath out (splitPath path) (f v)
  | none => out

def redactObject (top : List (String × Raw)) : List (String × Out) :=
  let out :=
    if spec.includeAll then deepConvert top
    else spec.included.foldl (copyPath top id) []
  let hashed := spec.hashed.foldl (copyPath top (hashValue codec salt)) out
  spec.excluded.foldl (fun out path => deletePath out (splitPath path)) hashed

def redact (payload : Raw) : Except Error String :=
  if spec.hashed ≠ [] ∧ salt = "" then .error .needsSalt
  else
    match parseObject payload with
    | none => .error .notObject
    | some top => .ok (marshalCanonical codec (redactObject codec spec salt top))

end

end Fabriq.Analytics.Redact
