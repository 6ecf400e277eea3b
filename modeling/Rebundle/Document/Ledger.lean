import Mathlib.Data.Prod.Lex
import Rebundle.Document.Edit

/-!
# Ledgers of edits

A document as it is stored: a ledger keeps the keys of its edits in a row of their own and finds the place of a new
edit by halving this row. A window keeps all edits and passes by those that are hidden in it.
-/

namespace Rebundle

/-- Where an edit stands in the order: its start, its stop turned around, and its number. -/
abbrev Key := Int ×ₗ Int ×ₗ Int

namespace Key

/-- The place behind the keys that pass, found by halving the keys between two places. -/
def seek (passes : Key → Bool) (keys : List Key) (low high : Nat) : Nat :=
  if low < high then
    let middle := (low + high) / 2
    match keys[middle]? with
    | some key => if passes key then seek passes keys (middle + 1) high else seek passes keys low middle
    | none => low
  else low
termination_by high - low

/-- The place in front of all keys that are greater. -/
def placeBehind (key : Key) (keys : List Key) : Nat :=
  seek (fun other => !decide (key < other)) keys 0 keys.length

/-- The place behind all keys that are less. -/
def placeBefore (key : Key) (keys : List Key) : Nat :=
  seek (fun other => decide (other < key)) keys 0 keys.length

end Key

/-- The key of an edit. -/
def Edit.key (edit : Edit) : Key := toLex (edit.start, toLex (-edit.stop, edit.seq))

/-- The edits of a source and, in a row of their own, their keys; `recorded` edits have been made. -/
structure Ledger where
  source : Bytes
  edits : List Edit
  keys : List Key
  recorded : Nat

namespace Ledger

def ofSource (source : Bytes) : Ledger := ⟨source, [], [], 0⟩

/-- The row with one more entry at a place. -/
def putAt {α : Type} (place : Nat) (entry : α) (row : List α) : List α :=
  row.take place ++ entry :: row.drop place

/-- Records the replacement of a range. What is refused is refused before anything is changed. -/
def replace (start stop : Int) (parts : List Part) (reason : Text) : EStateM RangeFault Ledger Edit := do
  let ledger ← get
  if start < 0 || stop < start || ledger.source.length < stop then
    throw ⟨start, stop, ledger.source.length⟩
  let edit : Edit := ⟨start.toNat, stop.toNat, parts, ledger.recorded, reason⟩
  modify fun ledger => { ledger with recorded := ledger.recorded + 1 }
  let place := edit.key.placeBehind ledger.keys
  modify fun ledger => { ledger with keys := putAt place edit.key ledger.keys }
  modify fun ledger => { ledger with edits := putAt place edit ledger.edits }
  return edit

def remove (start stop : Int) (wholeLine : Bool) (reason : Text) : EStateM RangeFault Ledger Edit := do
  let ledger ← get
  let (start, stop) := if wholeLine then Source.lineExtent ledger.source start stop else (start, stop)
  replace start stop [.text []] reason

/-- The edits from the first one on that does not begin in front of an offset. -/
def queue (ledger : Ledger) (start : Int) : List Edit :=
  ledger.edits.drop (Key.placeBefore (toLex (start, toLex (-(ledger.source.length : Int) - 1, -1))) ledger.keys)

section Loop

variable (render : List Nat → Int → Int → ExceptT Utf8.EncodeFault Option Bytes)

/-- The parts of an edit. A span hides what it names in addition to what is hidden. -/
def expand (hidden : List Nat) : List Part → ExceptT Utf8.EncodeFault Option Bytes
  | [] => return []
  | .text t :: parts => do
      let bytes ← MonadExcept.ofExcept (Utf8.encodeEscaped t)
      let behind ← expand hidden parts
      return bytes ++ behind
  | .span span :: parts => do
      let bytes ← render (span.hidden ++ hidden) span.start span.stop
      let behind ← expand hidden parts
      return bytes ++ behind

/-- The window from `cursor` on. What is not hidden, begins behind what is written and ends in time is expanded. -/
def scan (source : Bytes) (hidden : List Nat) (stop cursor : Int) : List Edit → ExceptT Utf8.EncodeFault Option Bytes
  | [] => return Source.slice source cursor stop
  | edit :: rest =>
      if stop < edit.start then return Source.slice source cursor stop
      else if hidden.contains edit.seq || edit.start < cursor || stop < edit.stop then
        scan source hidden stop cursor rest
      else do
        let replaced ← expand render (edit.seq :: hidden) edit.parts
        let behind ← scan source hidden stop edit.stop rest
        return Source.slice source cursor edit.start ++ replaced ++ behind

end Loop

/-- A window without the hidden edits, by windows nested less than `depth` deep. Where these do not suffice there
is no result. -/
def renderWithin (ledger : Ledger) : Nat → List Nat → Int → Int → ExceptT Utf8.EncodeFault Option Bytes
  | 0, _, _, _ => ExceptT.mk none
  | depth + 1, hidden, start, stop =>
      scan (ledger.renderWithin depth) ledger.source hidden stop start (ledger.queue start)

end Ledger

/-- A call that records an edit. -/
inductive Call where
  | replace (start stop : Int) (parts : List Part) (reason : Text)
  | insert (offset : Int) (parts : List Part) (reason : Text)
  | replaceNode (start stop : Int) (parts : List Part) (reason : Text)
  | remove (start stop : Int) (wholeLine : Bool) (reason : Text)

namespace Call

def onLedger : Call → EStateM RangeFault Ledger Edit
  | replace start stop parts reason => Ledger.replace start stop parts reason
  | insert offset parts reason => Ledger.replace offset offset parts reason
  | replaceNode start stop parts reason => Ledger.replace start stop parts reason
  | remove start stop wholeLine reason => Ledger.remove start stop wholeLine reason

def onDocument (doc : Document) : Call → Except RangeFault (Edit × Document)
  | replace start stop parts reason => doc.replace start stop parts reason
  | insert offset parts reason => doc.replace offset offset parts reason
  | replaceNode start stop parts reason => doc.replace start stop parts reason
  | remove start stop wholeLine reason => doc.remove start stop wholeLine reason

/-- The range that a call is about to record. -/
def range (source : Bytes) : Call → Int × Int
  | replace start stop .. => (start, stop)
  | insert offset .. => (offset, offset)
  | replaceNode start stop .. => (start, stop)
  | remove start stop wholeLine _ => if wholeLine then Source.lineExtent source start stop else (start, stop)

/-- Whether the range lies inside the source. -/
def Fits (source : Bytes) (call : Call) : Prop :=
  0 ≤ (call.range source).1 ∧ (call.range source).1 ≤ (call.range source).2 ∧
    (call.range source).2 ≤ source.length

end Call

/-! Calls one after the other, with the answers so far. -/

def Ledger.step (state : List (Except RangeFault Edit) × Ledger) (call : Call) :
    List (Except RangeFault Edit) × Ledger :=
  match call.onLedger state.2 with
  | .ok edit next => (state.1 ++ [.ok edit], next)
  | .error fault next => (state.1 ++ [.error fault], next)

def Document.step (state : List (Except RangeFault Edit) × Document) (call : Call) :
    List (Except RangeFault Edit) × Document :=
  match call.onDocument state.2 with
  | .ok (edit, next) => (state.1 ++ [.ok edit], next)
  | .error fault => (state.1 ++ [.error fault], state.2)

def Ledger.serve (source : Bytes) (calls : List Call) : List (Except RangeFault Edit) × Ledger :=
  calls.foldl step ([], ofSource source)

def Document.serve (source : Bytes) (calls : List Call) : List (Except RangeFault Edit) × Document :=
  calls.foldl step ([], ofSource source)

end Rebundle
