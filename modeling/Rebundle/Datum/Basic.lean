import Rebundle.Package

/-!
# Data

The values that a run works with, some of which have no form in JSON. Two keys of a map count as one
when they are equal as values; numbers and truth values are compared by size.
-/

namespace Rebundle

/-- A value of a kind of its own: how it looks in messages and as plain text, and whether it can be
copied. A copy looks like the value. -/
structure Thing where
  typeName : String
  quoted : Text
  plainText : Text
  copies : Bool
deriving DecidableEq

inductive Datum where
  | null
  | bool (value : Bool)
  | number (value : Number)
  | text (value : Text)
  | bytes (value : Bytes)
  | path (value : FilePath)
  | list (items : List Datum)
  | tuple (items : List Datum)
  | set (items : List Datum)
  | map (entries : List (Datum × Datum))
  | record (typeName : String) (fields : List (Text × Datum))
  | range (stop : Int)
  | thing (value : Thing)

namespace Extended

/-- Whether two points of the line are the same. -/
def same : Extended → Extended → Bool
  | .quotient a b, .quotient c d => a * d == c * b
  | .least, .least => true
  | .greatest, .greatest => true
  | _, _ => false

end Extended

/-- Whether two numbers are of the same size. -/
def Number.same (a b : Number) : Bool :=
  match a.place?, b.place? with
  | some p, some q => p.same q
  | _, _ => false

namespace Datum

def typeName : Datum → String
  | .null => "NoneType"
  | .bool _ => "bool"
  | .number (.whole _) => "int"
  | .number (.real _) => "float"
  | .text _ => "str"
  | .bytes _ => "bytes"
  | .path _ => "PosixPath"
  | .list _ => "list"
  | .tuple _ => "tuple"
  | .set _ => "set"
  | .map _ => "dict"
  | .record typeName _ => typeName
  | .range _ => "range"
  | .thing value => value.typeName

/-- The record of a state of a package, whose fields need not be texts. -/
def state (packageName version binName : Datum) : Datum :=
  .record "PackageState" [("package_name", packageName), ("version", version), ("bin_name", binName)]

/-- The number that a value counts as. -/
def number? : Datum → Option Number
  | .bool b => some (.whole (if b then 1 else 0))
  | .number n => some n
  | _ => none

mutual

/-- Whether two values are the same key. A thing is only the same as itself, and so no other key. -/
def sameKey : Datum → Datum → Bool
  | .null, .null => true
  | .text a, .text b => a == b
  | .bytes a, .bytes b => a == b
  | .path a, .path b => a == b
  | .tuple a, .tuple b => sameKeys a b
  | .record a fields, .record b fields' => a == b && sameFields fields fields'
  | .range a, .range b => max a 0 == max b 0
  | a, b =>
      match a.number?, b.number? with
      | some m, some n => m.same n
      | _, _ => false

def sameKeys : List Datum → List Datum → Bool
  | [], [] => true
  | a :: rest, b :: rest' => sameKey a b && sameKeys rest rest'
  | _, _ => false

def sameFields : List (Text × Datum) → List (Text × Datum) → Bool
  | [], [] => true
  | (_, a) :: rest, (_, b) :: rest' => sameKey a b && sameFields rest rest'
  | _, _ => false

end

/-- Puts an entry among others; a key that is there keeps its place and its form. -/
def putEntry (key value : Datum) : List (Datum × Datum) → List (Datum × Datum)
  | [] => [(key, value)]
  | (k, old) :: rest =>
      if sameKey k key then (k, value) :: rest else (k, old) :: putEntry key value rest

/-- The map of entries put in one after the other. -/
def ofEntries (entries : List (Datum × Datum)) : Datum :=
  .map (entries.foldl (fun table entry => putEntry entry.1 entry.2 table) [])

mutual

/-- The datum that a JSON value is. -/
def ofJson : Json → Datum
  | .null => .null
  | .bool b => .bool b
  | .number n => .number n
  | .string t => .text t
  | .array items => .list (ofItems items)
  | .object members => .map (ofMembers members)

def ofItems : List Json → List Datum
  | [] => []
  | item :: rest => ofJson item :: ofItems rest

def ofMembers : List (Text × Json) → List (Datum × Datum)
  | [] => []
  | (key, item) :: rest => (.text key, ofJson item) :: ofMembers rest

end

end Datum

end Rebundle
