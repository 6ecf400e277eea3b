import Rebundle.Datum.Basic

/-!
# Writing data as JSON

A datum is written piece by piece, up to the first part of it that has no form in JSON. Keys of a
map may be texts, numbers, truth values or null; where they are sorted they must be comparable.
A state is written as such a datum when its version is no text.
-/

namespace Rebundle

namespace Datum

/-- A piece of the written form, or what stands in its way. -/
abbrev Piece := Except DatumFault Text

/-- Whether keys can be compared, when both are of this one kind. -/
def comparable : Datum → Datum → Bool
  | .text _, .text _ => true
  | .bytes _, .bytes _ => true
  | .path _, .path _ => true
  | .tuple _, .tuple _ => true
  | a, b => a.number?.isSome && b.number?.isSome

/-- The first pair of neighbours that cannot be compared. -/
def unordered? : List (Datum × Datum) → Option DatumFault
  | a :: b :: rest =>
      if comparable a.1 b.1 then unordered? (b :: rest)
      else some (.unorderedKeys b.1.typeName a.1.typeName)
  | _ => none

/-- Whether a key stands before another that it can be compared with. -/
def keyPrecedes : Datum → Datum → Bool
  | .text a, .text b => Text.precedes a b
  | a, b =>
      match a.number?, b.number? with
      | some m, some n => m.below n
      | _, _ => false

/-- A key as it is written. -/
def keyPiece : Datum → Piece
  | .text t => .ok (Json.literal t)
  | .null => .ok (Json.literal "null")
  | .bool b => .ok (Json.literal (if b then "true" else "false"))
  | .number n => .ok (Json.literal (Json.numberText n))
  | key => .error (.keyType key.typeName)

/-- What is written before the parts of a value, unless that is nothing. -/
def leadPieces (lead : Text) : List Piece := if lead.isEmpty then [] else [.ok lead]

def newline (level : Nat) : Text := Json.newline level

/-- Entries with the pieces of their values already made, between braces. -/
def bracePieces (level : Nat) : List (Datum × List Piece) → List Piece
  | [] => []
  | (key, value) :: rest =>
      [.ok "\x7b", .ok (newline (level + 1)), keyPiece key, .ok ": "] ++ value
        ++ rest.flatMap (fun (key, value) =>
          [.ok ("," ++ newline (level + 1)), keyPiece key, .ok ": "] ++ value)
        ++ [.ok (newline level), .ok "\x7d"]

mutual

/-- The pieces of a datum laid out at `level`. A scalar is glued to `lead`, the text before it. -/
def pieces (sortKeys : Bool) (level : Nat) (lead : Text) : Datum → List Piece
  | .null => [.ok (lead ++ "null")]
  | .bool b => [.ok (lead ++ if b then "true" else "false")]
  | .number n => [.ok (lead ++ Json.numberText n)]
  | .text t => [.ok (lead ++ Json.literal t)]
  | .list [] | .tuple [] => [.ok (lead ++ "[]")]
  | .map [] => [.ok (lead ++ "\x7b\x7d")]
  | .list (first :: rest) | .tuple (first :: rest) =>
      leadPieces lead ++ pieces sortKeys (level + 1) ("[" ++ newline (level + 1)) first
        ++ itemPieces sortKeys (level + 1) rest ++ [.ok (newline level), .ok "]"]
  | .map entries =>
      let laidOut := entryPieces sortKeys (level + 1) entries
      let fault? := if sortKeys then unordered? entries else none
      match fault? with
      | some fault => leadPieces lead ++ [.ok "\x7b", .ok (newline (level + 1)), .error fault]
      | none =>
          leadPieces lead ++ bracePieces level
            (if sortKeys then laidOut.mergeSort fun a b => !keyPrecedes b.1 a.1 else laidOut)
  | datum => leadPieces lead ++ [.error (.notSerialisable datum.typeName)]

def itemPieces (sortKeys : Bool) (level : Nat) : List Datum → List Piece
  | [] => []
  | item :: rest =>
      pieces sortKeys level ("," ++ newline level) item ++ itemPieces sortKeys level rest

/-- The keys with the pieces of their values. -/
def entryPieces (sortKeys : Bool) (level : Nat) : List (Datum × Datum) → List (Datum × List Piece)
  | [] => []
  | (key, value) :: rest =>
      (key, pieces sortKeys level [] value) :: entryPieces sortKeys level rest

end

/-- A piece as it is written. -/
def encoded (piece : Piece) : Except Failure Bytes := piece.mapError Failure.datum >>= Storage.encoded

end Datum

/-- Writes a datum laid out over lines, with a line feed at the end. -/
def Host.writeDatum (host : Host) (path : Text) (datum : Datum) (sortKeys : Bool) : Run Unit :=
  host.write path ((datum.pieces sortKeys 0 [] ++ ([.ok "\n"] : List Datum.Piece)).map Datum.encoded)

def Storage.writeDatum (path : Text) (datum : Datum) (sortKeys : Bool) : Run Unit :=
  onHost (·.writeDatum path datum sortKeys)

/-- A state as it is held: a version that was set need not be a text. -/
structure HeldState where
  packageName : Text
  version : Datum
  binName : Text

namespace HeldState

def ofState (state : PackageState) : HeldState := ⟨state.packageName, .text state.version, state.binName⟩

def withVersion (version : Datum) (state : HeldState) : HeldState := { state with version }

/-- The description of a state. -/
def toDatum (state : HeldState) : Datum :=
  .map [(.text "packageName", .text state.packageName), (.text "version", state.version),
    (.text "bin_name", .text state.binName)]

/-- Writes the state to a file. -/
def save (path : FilePath) (state : HeldState) : Run Unit := do
  Storage.writeDatum path.text state.toDatum false
  Run.write (Log.info ("state file updated: " ++ path.text))

/-- A state with a text for its version is saved as every state is. -/
theorem save_ofState (path : FilePath) (state : PackageState) : save path (ofState state) = state.save path := by
  have written (host : Host) : host.writeDatum path.text (ofState state).toDatum false =
      host.writeJson path.text state.toJson := rfl
  simp only [save, PackageState.save, Storage.writeDatum, Storage.writeJson, written]

end HeldState

end Rebundle
