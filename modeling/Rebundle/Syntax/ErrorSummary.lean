import Rebundle.Log
import Rebundle.Number.Shortest
import Rebundle.Syntax.Cursor
import Rebundle.Syntax.Program

/-!
# Syntax errors

A tree shows the errors that its reading recovered from: nodes of skipped text, and missing nodes.
Their summary decides whether a source is usable at all.
-/

namespace Rebundle

structure ErrorSummary where
  errorNodes : Nat
  missingNodes : Nat
  errorBytes : Nat
  firstError : Option Nat
deriving DecidableEq

namespace ErrorSummary

def empty : ErrorSummary := ⟨0, 0, 0, none⟩

def count (summary : ErrorSummary) : Nat := summary.errorNodes + summary.missingNodes

/-- The summary with a missing node at this offset. -/
def addMissing (offset : Nat) (summary : ErrorSummary) : ErrorSummary :=
  { summary with
    missingNodes := summary.missingNodes + 1
    firstError := summary.firstError.orElse fun _ => some offset }

/-- The summary with an error node whose part behind `start` is counted. -/
def addError (start : Nat) (range : Range) (summary : ErrorSummary) : ErrorSummary :=
  let first := max range.start start
  { summary with
    errorNodes := summary.errorNodes + 1
    errorBytes := summary.errorBytes + (range.stop - first)
    firstError := summary.firstError.orElse fun _ => some first }

/-- Counts errors behind `start`, and goes into nodes that hold some. -/
def visitor (start : Nat) : Visitor ErrorSummary where
  enter cursor summary :=
    let t := cursor.focus
    if t.stop ≤ start || !t.hasError then (false, summary)
    else if t.isMissing then (false, summary.addMissing t.start)
    else if t.kind == .error then (false, summary.addError start t.range)
    else (true, summary)

/-- The errors of a tree that end behind `start`. -/
def ofTree (start : Nat) (root : Tree) : ErrorSummary :=
  if root.hasError then (visitor start).walk root empty else empty

end ErrorSummary

/-- Why a source cannot be used. -/
inductive SyntaxFault where
  | unread (dialect : Dialect) (why : Text)
  | wholeProgram
  | tooManyErrors (summary : ErrorSummary) (length : Nat)
deriving DecidableEq

namespace SyntaxFault

def message : SyntaxFault → Text
  | .unread dialect why => "tree-sitter failed to parse " ++ dialect.name ++ " source: " ++ why
  | .wholeProgram => "source could not be parsed: the whole program is a syntax error"
  | .tooManyErrors summary length =>
      "source could not be parsed: " ++ Text.ofNat summary.errorBytes ++ " of " ++ Text.ofNat length
        ++ " bytes are unparseable (first error at byte "
        ++ (match summary.firstError with
          | some offset => Text.ofNat offset
          | none => "None")
        ++ ")"

end SyntaxFault

namespace Tree

/-- The record of errors that were passed over. -/
def recovered (summary : ErrorSummary) : Log.Record :=
  Log.warning <| "recovered from " ++ Text.ofNat summary.count ++ " syntax error(s) ("
    ++ Text.ofNat summary.errorBytes ++ " unparseable bytes, first at byte "
    ++ (match summary.firstError with
      | some offset => Text.ofNat offset
      | none => "None")
    ++ ")"

/-- Accepts a tree of a source of `length` bytes unless the share of unreadable bytes behind `start`
is above the threshold. -/
def judge (length start : Nat) (threshold : Number) (root : Tree) :
    Logged (Except SyntaxFault Tree) := do
  if root.kind == .error then return .error .wholeProgram
  if !root.hasError then return .ok root
  let summary := ErrorSummary.ofTree start root
  let length := max (length - start) 1
  let share := Number.real (Binary64.ofRatio false summary.errorBytes length)
  if threshold.below share then return .error (.tooManyErrors summary length)
  Logged.write (recovered summary)
  return .ok root

end Tree

end Rebundle
