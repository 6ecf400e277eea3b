import Rebundle.Bootstrap
import Rebundle.Document.Render
import Rebundle.Failure
import Rebundle.Rewrite.Body
import Rebundle.Rewrite.Modules
import Rebundle.Rewrite.Removal
import Rebundle.Rewrite.Renaming
import Rebundle.Rewrite.TopLevelAwait

/-!
# Patches

A patch puts the bootstrap in front of a source, reads the result and lets the passes record their
edits in one walk; rendering the edits gives the patched code. What lies before the end of the
bootstrap is left alone.
-/

namespace Rebundle

namespace RewritePass

/-- All passes, in the order in which a node is offered to them. -/
def standard : List RewritePass :=
  [Modules.pass, Renaming.pass, Removal.pass, Body.pass, TopLevelAwait.pass]

def ofName? (name : Text) : Option RewritePass := standard.find? fun pass => pass.name == name

/-- Offers a node to the passes until one of them ends its visits. -/
def visitAll (cursor : Cursor) (rewrite : Rewrite) : List RewritePass → Bool × Rewrite
  | [] => (true, rewrite)
  | pass :: rest =>
      match pass.visit cursor rewrite with
      | (true, rewrite) => visitAll cursor rewrite rest
      | (false, rewrite) => (false, rewrite)

/-- Offers the nodes that end behind the bootstrap to the passes concerned with them. -/
def visitor (passes : List RewritePass) : Visitor Rewrite where
  enter cursor rewrite :=
    if cursor.focus.stop ≤ rewrite.skipBefore && cursor.kind != .program then (false, rewrite)
    else visitAll cursor rewrite (passes.filter fun pass => pass.concerns cursor.kind)

/-- Lets the passes prepare, walk and finish. -/
def run (passes : List RewritePass) (root : Tree) (rewrite : Rewrite) : Rewrite :=
  let rewrite := passes.foldl (fun rewrite pass => pass.prepare rewrite) rewrite
  let rewrite := (visitor passes).walk root rewrite
  passes.foldl (fun rewrite pass => pass.finish root rewrite) rewrite

end RewritePass

/-- How sources are patched. -/
structure Patcher where
  dialect : Text
  bootstrap : Bootstrap
  threshold : Number
  passes : List RewritePass
  parser : Parser

namespace Patcher

/-- The usual share of unreadable bytes above which a source is refused. -/
def standardThreshold : Number := .real (Binary64.ofRatio false 1 2)

def standard : Patcher :=
  ⟨Dialect.javascript.name, Bootstrap.standard, standardThreshold, RewritePass.standard, Parser.standard⟩

end Patcher

/-- Patched code, with what was done to it. -/
structure Patch where
  code : Text
  stats : Table Text Nat
  warnings : List Text
  syntaxErrors : Nat

namespace Patch

/-- The number of edits that the counters tell of. -/
def edits (patch : Patch) : Nat := (patch.stats.map (·.2)).foldr (· + ·) 0

/-- The patch without its code. -/
def summary (patch : Patch) : List (Text × Json) :=
  [("stats", .object (patch.stats.map fun entry => (entry.1, Json.ofNat entry.2))),
   ("warnings", .array (patch.warnings.map .string)),
   ("syntax_errors", Json.ofNat patch.syntaxErrors),
   ("size", Json.ofNat patch.code.length)]

end Patch

/-- A program as it is rewritten: its bytes, the end of its bootstrap, and its tree. -/
structure Prepared where
  source : Bytes
  start : Nat
  root : Tree

namespace Patcher

/-- The source with its bootstrap, encoded. -/
def encode (patcher : Patcher) (source : Text) (path : Option Text) :
    Except Failure (Bytes × Nat) := do
  let (text, start) ← (patcher.bootstrap.prepend source).mapError .encoding
  let encoded ← (Utf8.encodeEscaped text).mapError fun fault => .source (.unencodable fault) path
  return (encoded, start)

/-- The program in a source. -/
def prepare (patcher : Patcher) (source : Text) (path : Option Text) :
    Logged (Except Failure Prepared) := do
  match patcher.encode source path with
  | .error failure => return .error failure
  | .ok (encoded, start) =>
      match Dialect.ofName? patcher.dialect with
      | none => return .error (.unknownDialect patcher.dialect)
      | some dialect =>
          match patcher.parser dialect encoded with
          | .error why => return .error (.source (.unusable (.unread dialect why)) path)
          | .ok root =>
              match ← root.judge encoded.length start patcher.threshold with
              | .error fault => return .error (.source (.unusable fault) path)
              | .ok root => return .ok ⟨encoded, start, root⟩

/-- The scopes that the passes ask for. -/
def scopesFor (config : PatchConfig) (prepared : Prepared) : Logged ScopeTable :=
  if config.renameIdentifiers.isEmpty then pure ⟨[], [], []⟩
  else ScopeTable.ofTree prepared.source prepared.start prepared.root

/-- What the passes start from. -/
def start (config : PatchConfig) (prepared : Prepared) (scopes : ScopeTable) : Rewrite :=
  { doc := Document.ofSource prepared.source
    config := config
    skipBefore := prepared.start
    scopes := scopes
    renames := []
    stats := []
    warnings := []
    usedNames := Names.collect prepared.source
    log := [] }

/-- The program with all edits of the passes recorded. -/
def rewrite (patcher : Patcher) (config : PatchConfig) (prepared : Prepared) : Logged Rewrite := do
  let scopes ← scopesFor config prepared
  let active := patcher.passes.filter fun pass => pass.applies config
  Logged.write (Log.debug ("active passes: " ++ Text.join ", " (active.map (·.name))))
  let rewrite := RewritePass.run active prepared.root (start config prepared scopes)
  ⟨rewrite, rewrite.log⟩

/-- The patch that the recorded edits amount to. -/
def finish (prepared : Prepared) (rewrite : Rewrite) : Logged (Except Failure Patch) := do
  match rewrite.doc.render with
  | .error fault => return .error (.encoding fault)
  | .ok rendered =>
      let code := Utf8.decodeEscaped rendered
      Logged.write <| Log.info <|
        "patched " ++ Text.ofNat (prepared.source.length - prepared.start) ++ " bytes into "
          ++ Text.ofNat code.length ++ " bytes with " ++ Text.ofNat rewrite.doc.edits.length
          ++ " edit(s)"
      return .ok ⟨code, rewrite.stats, rewrite.warnings,
        (ErrorSummary.ofTree prepared.start prepared.root).count⟩

/-- The patch of a source. -/
def patch (patcher : Patcher) (config : PatchConfig) (source : Text) (path : Option Text) :
    Logged (Except Failure Patch) := do
  match ← patcher.prepare source path with
  | .error failure => return .error failure
  | .ok prepared => finish prepared (← patcher.rewrite config prepared)

/-- The patch of encoded source. -/
def patchBytes (patcher : Patcher) (config : PatchConfig) (source : Bytes) (path : Option Text) :
    Logged (Except Failure Patch) :=
  match Utf8.decode source with
  | .error fault => pure (.error (.source (.undecodable fault) path))
  | .ok source => patcher.patch config source path

end Patcher

end Rebundle
