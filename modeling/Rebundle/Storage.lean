import Rebundle.Json.Writer
import Rebundle.Patch
import Rebundle.World

/-!
# Reading and writing files

A file is written whole or not at all. Its content goes piece by piece to a temporary file beside the target, which
takes the place of the target when it is finished and is removed when something goes wrong before. Text keeps the
bytes that cannot be decoded, and its line ends are unified when it is read.
-/

namespace Rebundle

namespace Utf8

/-- Strict reading behind a byte order mark. What could still become a mark is nothing. -/
def decodeMarked (bytes : Bytes) : Except DecodeFault Text :=
  let mark : Bytes := [0xEF, 0xBB, 0xBF]
  if mark.isPrefixOf bytes then decode (bytes.drop mark.length)
  else if bytes.isPrefixOf mark then .ok []
  else decode bytes

end Utf8

namespace Host

/-- Asks for an act. -/
def ask (host : Host) (act : Act) : Run Unit := do
  match host.refusal? act (← get).disk with
  | some failure => throw failure
  | none => pure ()

/-- Makes the missing directories of these levels, each of which the host may refuse. -/
def makeLevels (host : Host) : List Text → Run Unit
  | [] => pure ()
  | level :: rest => do
      match (← get).disk.node? (Place.ofText level) with
      | some .directory => host.makeLevels rest
      | none =>
          host.ask (.makeDirectory level)
          Run.change (Disk.put (Place.ofText level) .directory)
          host.makeLevels rest
      | some (.file _) => Run.onDisk (Disk.makeLevels (level :: rest))

/-- Streams pieces into a temporary file, up to the first piece that did not come about. -/
def fill (host : Host) (temporary : Place) : List (Except Failure Bytes) → Run Unit
  | [] => host.ask .finish
  | piece :: rest => do
      let more ← MonadExcept.ofExcept piece
      host.ask (.write more)
      Run.change (Disk.extend temporary more)
      host.fill temporary rest

/-- Fills a temporary file and moves it to its target. -/
def deliver (host : Host) (temporary : Place) (path : Text) (pieces : List (Except Failure Bytes)) : Run Unit := do
  host.fill temporary pieces
  host.ask (.move path)
  Run.onDisk (Disk.move temporary path)

/-- Writes the pieces of a content through a temporary file. -/
def write (host : Host) (path : Text) (pieces : List (Except Failure Bytes)) : Run Unit := do
  let directory := Disk.directoryOf path
  host.makeLevels (Disk.levels directory)
  host.ask (.create directory)
  let place := Place.ofText directory
  let temporary := place ++ [temporaryName (host.part place (← get).disk)]
  Run.change (Disk.put temporary (.file []))
  try host.deliver temporary path pieces
  catch failure =>
    Run.change (Disk.unlink temporary)
    throw failure

end Host

/-- A piece of text as it is written. -/
def Storage.encoded (piece : Text) : Except Failure Bytes := (Utf8.encodeEscaped piece).mapError .encoding

namespace Host

open Storage (encoded)

def writeBytes (host : Host) (path : Text) (content : Bytes) : Run Unit := host.write path [.ok content]

def writeText (host : Host) (path content : Text) : Run Unit := host.write path [encoded content]

/-- Writes a value laid out over lines, with a line feed at the end. -/
def writeJson (host : Host) (path : Text) (value : Json) : Run Unit :=
  host.write path ((Json.prettyPieces value ++ ([("\n" : Text)] : List Text)).map encoded)

end Host

namespace Storage

def readBytes (path : Text) : Run Bytes := do
  let world ← get
  Run.ofExcept (world.disk.read path) .system

/-- The text of a file, with undecodable bytes escaped and line ends unified. -/
def readText (path : Text) : Run Text :=
  return Text.unifyLineEnds (Utf8.decodeEscaped (← readBytes path))

/-- Does what the host of the world does. -/
def onHost (act : Host → Run Unit) : Run Unit := do act (← get).host

def writeBytes (path : Text) (content : Bytes) : Run Unit := onHost (·.writeBytes path content)

def writeText (path content : Text) : Run Unit := onHost (·.writeText path content)

def writeJson (path : Text) (value : Json) : Run Unit := onHost (·.writeJson path value)

/-- What reading JSON from a file gives. -/
inductive JsonContent where
  | missing
  | invalid
  | value (v : Json)

/-- Reports a file that holds no JSON that could be read. -/
def noJson (path : FilePath) (why : Text) : Run JsonContent := do
  Run.write (Log.warning ("failed to read JSON from " ++ path.text ++ ": " ++ why))
  return .invalid

/-- The value in a file, if there is one. Bytes that cannot be decoded are a failure, and so is JSON beyond the limits
of the host. -/
def readJson (path : FilePath) : Run JsonContent := do
  let world ← get
  if !world.disk.isFile (Place.ofText path.text) then
    Run.write (Log.debug ("JSON file " ++ path.text ++ " does not exist"))
    return .missing
  match world.disk.read path.text with
  | .error fault => noJson path fault.message
  | .ok bytes =>
      let text ← Run.ofExcept (Utf8.decodeMarked bytes) .decoding
      match Json.parse world.host.limits (Text.unifyLineEnds text) with
      | .ok v => return .value v
      | .error (.fault fault) => noJson path fault.message
      | .error (.excess beyond) => throw (.excess beyond)

end Storage

namespace PatchConfig

/-- The configuration in a file. -/
def load (path : FilePath) : Run PatchConfig := do
  let world ← get
  let bytes ← Run.ofExcept (world.disk.read path.text) fun fault =>
    .config (.unreadable path.text fault)
  let text ← Run.ofExcept (Utf8.decodeMarked bytes) .decoding
  let value ← Run.ofExcept (Json.parse world.host.limits (Text.unifyLineEnds text)) fun
    | .fault fault => .config (.invalidJson path.text fault)
    | .excess beyond => .excess beyond
  Run.ofLogged ((·.mapError .config) <$> ofJson value)

/-- The configuration in a file, or the standard one. -/
def resolve : Option FilePath → Run PatchConfig
  | some path => load path
  | none => pure standard

end PatchConfig

namespace Patcher

/-- Patches a file into another one. -/
def patchFile (patcher : Patcher) (input output : Text) (config : PatchConfig) : Run Patch := do
  Run.write (Log.info ("patching " ++ input))
  let source ← Storage.readText input
  Storage.onHost (·.ask (.patch source))
  let patch ← Run.ofLogged (patcher.patch config source (some input))
  Storage.writeText output patch.code
  Run.write (Log.info ("wrote patched source to " ++ output))
  return patch

end Patcher

end Rebundle
