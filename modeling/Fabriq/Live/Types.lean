import Fabriq.Query.Filter

namespace Fabriq.Live.Types

open Core.Value Query.Filter

inductive Mode
  | maintained
  | streamed
  deriving DecidableEq, Repr

structure SortKey where
  column : String
  desc : Bool
  deriving DecidableEq, Repr

/-- A keyset anchor: one value per sort key, then the id. -/
structure Cursor where
  values : List Json

/-- A registered window over an entity; `conds` is the filter. -/
structure LiveQuery where
  entity : String
  conds : Where
  sort : List SortKey
  limit : Nat
  cursor : Option Cursor := none
  mode : Mode := .maintained
  fieldDeltas : Bool := false

structure Row where
  aggId : String
  version : Int
  cursor : Cursor
  raw : String
  vals : Vals

structure Change where
  aggId : String
  version : Int
  deleted : Bool
  vals : Vals
  raw : String
  streamId : String := ""
  time : Int := 0

inductive DeltaOp
  | enter
  | leave
  | move
  | update
  | reset
  | isMatch
  | unmatch
  deriving DecidableEq, Repr

structure LiveDelta where
  op : DeltaOp
  aggId : String := ""
  version : Int := 0
  row : String := ""
  oldIndex : Int := 0
  newIndex : Int := 0
  cursor : Cursor := ⟨[]⟩
  streamId : String := ""
  time : Int := 0
  changes : Vals := none

/-- The fields that differ between two column maps: a moved or added field
carries its new value, a dropped one carries null. -/
def diffVals : Vals → Vals → Vals
  | some prev, some next =>
    let moved := next.filter fun field =>
      match prev.lookup field.1 with
      | some value => !value.deepEqual field.2
      | none => true
    let dropped := (prev.filter fun field => (next.lookup field.1).isNone).map
      fun field => (field.1, Json.null)
    match moved ++ dropped with
    | [] => none
    | changes => some changes
  | _, _ => none

def withChanges (d : LiveDelta) (changes : Vals) : LiveDelta :=
  { d with changes := changes }

end Fabriq.Live.Types
