import Rebundle.Rewrite.Context

/-!
# Awaits of the program itself

A program without modules cannot wait at its top level. Its statements that wait are taken out and
put, in their order, into one asynchronous function at the end, which is called at once.
-/

namespace Rebundle.TopLevelAwait

/-- Statements of the program that consist of a wait and end behind `skipBefore`. -/
def statements (skipBefore : Nat) (root : Tree) : List Tree :=
  root.parts.filter fun t =>
    skipBefore < t.stop && t.kind == .expressionStatement
      && (t.firstPart?.map (·.kind) == some .awaitExpression)

/-- Takes the statements out, one after the other. -/
def takeOut (rewrite : Rewrite) : List Tree → List (Tree × Edit) × Rewrite
  | [] => ([], rewrite)
  | t :: rest =>
      let (edit, rewrite) := rewrite.remove t.range "top-level await"
      let (taken, rewrite) := takeOut rewrite rest
      ((t, edit) :: taken, rewrite)

/-- Where the text ends that removals at the end of the source leave. -/
def tail (length : Nat) (removals : List Edit) : Nat :=
  removals.reverse.foldl (fun tail edit => if edit.stop = tail then edit.start else tail) length

/-- The line feed that the wrapper needs in front of it, if any. -/
def lead (source : Bytes) (tail : Nat) : Text :=
  if tail = 0 || (source.drop (tail - 1)).head?.any isLineFeed then [] else "\n"

/-- One line of the wrapper. -/
def line (taken : Tree × Edit) : List Part :=
  [.text "  ", .span (Span.ofRange taken.1.range [taken.2]), .text "\n"]

def finish (root : Tree) (rewrite : Rewrite) : Rewrite :=
  match takeOut rewrite (statements rewrite.skipBefore root) with
  | ([], rewrite) => rewrite
  | (taken, rewrite) =>
      let found := taken.length
      let rewrite := rewrite.write <| Log.info <|
        "wrapping " ++ Text.ofNat found ++ " top-level await statement(s) in an async function"
      let source := rewrite.source
      let opening := lead source (tail source.length (taken.map (·.2))) ++ ";(async () => \x7b\n"
      let parts := .text opening :: taken.flatMap line ++ [.text "\x7d)();\n"]
      let place : Range := ⟨source.length, source.length⟩
      (rewrite.replace place parts "async wrapper").count "top_level_awaits" found

def pass : RewritePass where
  name := "top_level_await"
  applies _ := true
  concerns _ := false
  prepare rewrite := rewrite
  visit _ rewrite := (true, rewrite)
  finish := finish

end Rebundle.TopLevelAwait
