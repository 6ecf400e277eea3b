import Rebundle.Datum.Basic

/-!
# Summaries of data

A summary says in JSON what a datum is: bytes become hexadecimal digits, paths and keys become text,
rows of all kinds become arrays, records become objects of their fields, and what has no form of its
own becomes the text that messages show for it.

The fields of a record are taken apart first: the records in them become maps, rows and maps are made
again, and all else is copied. This fails where a map would have another map in a key, or where
something cannot be copied; otherwise it leaves no trace in the summary.
-/

namespace Rebundle.Datum

/-- A byte between quotes. -/
def quotedByte (quote : CodePoint) (b : UInt8) : Text :=
  let c := CodePoint.ofNat b.toNat
  if c = quote || c = '\\' then ['\\', c]
  else if c = '\n' then "\\n"
  else if c = '\r' then "\\r"
  else if c = '\t' then "\\t"
  else if 0x20 ≤ b && b < 0x7F then [c]
  else "\\x" ++ Text.hex 2 b.toNat

/-- Bytes as messages show them. -/
def quotedBytes (bytes : Bytes) : Text :=
  let quote : CodePoint := if bytes.contains 0x27 && !bytes.contains 0x22 then '"' else '\''
  "b" ++ [quote] ++ bytes.flatMap (quotedByte quote) ++ [quote]

mutual

/-- The datum as messages show it. -/
def quoted : Datum → Text
  | .null => "None"
  | .bool b => Json.boolText b
  | .number n => n.text
  | .text t => t.quoted
  | .bytes value => quotedBytes value
  | .path value => "PosixPath(" ++ value.text.quoted ++ ")"
  | .list items => "[" ++ Text.join ", " (quotedItems items) ++ "]"
  | .tuple [item] => "(" ++ quoted item ++ ",)"
  | .tuple items => "(" ++ Text.join ", " (quotedItems items) ++ ")"
  | .set [] => "set()"
  | .set items => "\x7b" ++ Text.join ", " (quotedItems items) ++ "\x7d"
  | .map entries => "\x7b" ++ Text.join ", " (quotedEntries entries) ++ "\x7d"
  | .record typeName fields =>
      Text.ofString typeName ++ "(" ++ Text.join ", " (quotedFields fields) ++ ")"
  | .range stop => "range(0, " ++ Text.ofInt stop ++ ")"
  | .thing value => value.quoted

def quotedItems : List Datum → List Text
  | [] => []
  | item :: rest => quoted item :: quotedItems rest

def quotedEntries : List (Datum × Datum) → List Text
  | [] => []
  | (key, value) :: rest => (quoted key ++ ": " ++ quoted value) :: quotedEntries rest

def quotedFields : List (Text × Datum) → List Text
  | [] => []
  | (name, value) :: rest => (name ++ "=" ++ quoted value) :: quotedFields rest

end

/-- The datum as plain text: texts and paths are themselves, things have a plain text of their own, and
all else is shown as in messages. -/
def plainText : Datum → Text
  | .text t => t
  | .path value => value.text
  | .thing value => value.plainText
  | datum => datum.quoted

mutual

/-- What a datum is, in JSON, when nothing stands in the way. -/
def summary : Datum → Json
  | .null => .null
  | .bool b => .bool b
  | .number n => .number n
  | .text t => .string t
  | .bytes value => .string (value.flatMap fun b => Text.hex 2 b.toNat)
  | .path value => .string value.text
  | .list items | .tuple items | .set items => .array (summaryItems items)
  | .map entries => .object (Table.ofList (summaryEntries entries))
  | .record _ fields => .object (Table.ofList (summaryFields fields))
  | .range stop => .string (quoted (.range stop))
  | .thing value => .string value.quoted

def summaryItems : List Datum → List Json
  | [] => []
  | item :: rest => summary item :: summaryItems rest

def summaryEntries : List (Datum × Datum) → List (Text × Json)
  | [] => []
  | (key, value) :: rest => (key.plainText, summary value) :: summaryEntries rest

def summaryFields : List (Text × Datum) → List (Text × Json)
  | [] => []
  | (name, value) :: rest => (name, summary value) :: summaryFields rest

end

mutual

/-- What keeps a datum from being copied with all that is in it. -/
def uncopied? : Datum → Option DatumFault
  | .list items | .tuple items | .set items => uncopiedItems? items
  | .map entries => uncopiedEntries? entries
  | .record _ fields => uncopiedFields? fields
  | .thing value => if value.copies then none else some (.uncopied value.typeName)
  | _ => none

def uncopiedItems? : List Datum → Option DatumFault
  | [] => none
  | item :: rest => (uncopied? item).or (uncopiedItems? rest)

def uncopiedEntries? : List (Datum × Datum) → Option DatumFault
  | [] => none
  | (key, value) :: rest => ((uncopied? value).or (uncopied? key)).or (uncopiedEntries? rest)

def uncopiedFields? : List (Text × Datum) → Option DatumFault
  | [] => none
  | (_, value) :: rest => (uncopied? value).or (uncopiedFields? rest)

end

mutual

/-- Whether a datum that is taken apart comes to hold a map: there is a record in its rows and maps. -/
def holdsRecord : Datum → Bool
  | .record _ _ => true
  | .list items | .tuple items => itemsHoldRecord items
  | .map entries => entriesHoldRecord entries
  | _ => false

def itemsHoldRecord : List Datum → Bool
  | [] => false
  | item :: rest => holdsRecord item || itemsHoldRecord rest

def entriesHoldRecord : List (Datum × Datum) → Bool
  | [] => false
  | (key, value) :: rest => (holdsRecord key || holdsRecord value) || entriesHoldRecord rest

end

mutual

/-- What keeps a datum from being taken apart. A key of a map must not become a map. -/
def tangle? : Datum → Option DatumFault
  | .list items | .tuple items => tangleItems? items
  | .set items => uncopiedItems? items
  | .map entries => tangleEntries? entries
  | .record _ fields => tangleFields? fields
  | .thing value => uncopied? (.thing value)
  | _ => none

def tangleItems? : List Datum → Option DatumFault
  | [] => none
  | item :: rest => (tangle? item).or (tangleItems? rest)

def tangleEntries? : List (Datum × Datum) → Option DatumFault
  | [] => none
  | (key, value) :: rest =>
      ((tangle? key).or (tangle? value)).or <|
        (if holdsRecord key then some (.unfitKey "dict") else none).or (tangleEntries? rest)

def tangleFields? : List (Text × Datum) → Option DatumFault
  | [] => none
  | (_, value) :: rest => (tangle? value).or (tangleFields? rest)

end

mutual

/-- What keeps a datum from being summarised. -/
def fault? : Datum → Option DatumFault
  | .list items | .tuple items | .set items => faultItems? items
  | .map entries => faultEntries? entries
  | .record _ fields => (tangleFields? fields).or (faultFields? fields)
  | _ => none

def faultItems? : List Datum → Option DatumFault
  | [] => none
  | item :: rest => (fault? item).or (faultItems? rest)

def faultEntries? : List (Datum × Datum) → Option DatumFault
  | [] => none
  | (_, value) :: rest => (fault? value).or (faultEntries? rest)

def faultFields? : List (Text × Datum) → Option DatumFault
  | [] => none
  | (_, value) :: rest => (fault? value).or (faultFields? rest)

end

mutual

/-- How many levels of rows, maps and records are nested in a datum, those in keys included. -/
def depth : Datum → Nat
  | .list items | .tuple items | .set items => itemsDepth items + 1
  | .map entries => entriesDepth entries + 1
  | .record _ fields => fieldsDepth fields + 1
  | _ => 0

def itemsDepth : List Datum → Nat
  | [] => 0
  | item :: rest => max (depth item) (itemsDepth rest)

def entriesDepth : List (Datum × Datum) → Nat
  | [] => 0
  | (key, value) :: rest => max (max (depth key) (depth value)) (entriesDepth rest)

def fieldsDepth : List (Text × Datum) → Nat
  | [] => 0
  | (_, value) :: rest => max (depth value) (fieldsDepth rest)

end

/-- The summary of a datum with at most so many levels, or what stands in its way. -/
def summarised (levels : Nat) (datum : Datum) : Except DatumFault Json :=
  if levels < datum.depth then .error .tooDeep
  else match datum.fault? with
    | some fault => .error fault
    | none => .ok datum.summary

end Rebundle.Datum
