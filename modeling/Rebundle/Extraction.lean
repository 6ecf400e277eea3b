import Rebundle.Occurrence
import Rebundle.Storage

/-!
# Extraction

A bundle lies in an executable behind a header, which holds the path of the entry module, and in
front of the comment that opens its debugging data. The first header and the last such comment
behind it count. Where a marker is missing nothing is cut off on its side, and without a header the
input is taken for a bundle as it is.
-/

namespace Rebundle

/-- The markers around a bundle. -/
structure Markers where
  header : Bytes
  tail : Bytes
deriving DecidableEq

namespace Markers

def bytesOf (t : String) : Bytes := t.toUTF8.toList

/-- The directory of the entry module, as it is written for a platform. -/
def root (platform : Text) : Bytes :=
  bytesOf (if platform = "windows" then "B:/~BUN/root/" else "/$bunfs/root/")

/-- What follows the name of the entry module. -/
def pragma : Bytes := bytesOf "\x00// @bun\n"

/-- The header in front of the entry module of a binary. -/
def headerFor (binaryName platform : Text) : Except Utf8.EncodeFault Bytes := do
  return root platform ++ (← Utf8.encode binaryName) ++ pragma

def standardTail : Bytes := bytesOf "//# debugId="

/-- The name of the binary whose markers are looked for when none is given. -/
def standardBinary : Text := "droid.exe"

def standardPlatform : Text := "windows"

def standard : Markers := ⟨bytesOf "B:/~BUN/root/droid.exe" ++ pragma, standardTail⟩

end Markers

/-- What was found, with the part that is left. The offset of the tail counts from the end of the
header. -/
inductive Extraction where
  | headerMissing (payload : Bytes)
  | tailMissing (headerOffset : Nat) (payload : Bytes)
  | stripped (headerOffset tailOffset : Nat) (payload : Bytes)
deriving DecidableEq

namespace Extraction

def payload : Extraction → Bytes
  | .headerMissing payload | .tailMissing _ payload | .stripped _ _ payload => payload

def headerOffset? : Extraction → Option Nat
  | .headerMissing _ => none
  | .tailMissing offset _ | .stripped offset _ _ => some offset

def tailOffset? : Extraction → Option Nat
  | .headerMissing _ | .tailMissing _ _ => none
  | .stripped _ offset _ => some offset

def status : Extraction → String
  | .headerMissing _ => "header_missing"
  | .tailMissing _ _ => "tail_missing"
  | .stripped _ _ _ => "stripped"

/-- What a report says about an extraction. -/
def summary (e : Extraction) : List (Text × Json) :=
  let offset (o : Option Nat) : Json := (o.map Json.ofNat).getD .null
  [("status", .string e.status), ("header_offset", offset e.headerOffset?),
   ("tail_offset", offset e.tailOffset?), ("payload_length", Json.ofNat e.payload.length)]

/-- Takes the bundle out of a buffer. -/
def ofBuffer (markers : Markers) (buffer : Bytes) : Extraction :=
  match Occurrence.first? markers.header buffer with
  | none => .headerMissing buffer
  | some header =>
      match Occurrence.last? markers.tail header.behind with
      | none => .tailMissing header.offset header.behind
      | some tail => .stripped header.offset tail.offset tail.before

/-- The last two bytes of a payload, when it has that many. -/
def ending? (payload : Bytes) : Option Text :=
  match payload.reverse with
  | last :: previous :: _ => some (Text.hex 2 previous.toNat ++ " " ++ Text.hex 2 last.toNat)
  | _ => none

/-- The records of a header that was found, with so many bytes behind it. -/
def headerFound (markers : Markers) (offset left : Nat) : Log :=
  [Log.info ("header marker found at offset " ++ Text.ofNat offset),
   Log.info ("removed header (0.." ++ Text.ofNat (offset + markers.header.length) ++ "), "
     ++ Text.ofNat left ++ " bytes remain")]

/-- What is reported while a bundle of a buffer is taken out. -/
def log (markers : Markers) (buffer : Bytes) : Extraction → Log
  | .headerMissing payload =>
      [Log.warning ("header marker not found, passing " ++ Text.ofNat payload.length
        ++ " bytes through unchanged")]
  | .tailMissing offset payload =>
      headerFound markers offset payload.length
        ++ [Log.info ("tail marker not found, keeping all " ++ Text.ofNat payload.length
          ++ " remaining bytes")]
  | .stripped offset tail payload =>
      headerFound markers offset (buffer.length - (offset + markers.header.length))
        ++ (ending? payload).toList.map (fun ending =>
          Log.debug ("bytes before tail marker: " ++ ending))
        ++ [Log.info ("tail marker found at offset " ++ Text.ofNat tail ++ " (last occurrence)")]

/-- The bundle of a buffer, with its records. -/
def report (markers : Markers) (buffer : Bytes) : Logged Extraction :=
  let e := ofBuffer markers buffer
  ⟨e, e.log markers buffer⟩

/-- Takes the bundle out of a file and writes it to another. -/
def ofFile (input output : Text) (markers : Markers) : Run Extraction := do
  Run.write (Log.info ("extracting bundled source from " ++ input))
  let buffer ← Storage.readBytes input
  let e ← Run.ofLogged (Except.ok <$> report markers buffer)
  Storage.writeBytes output e.payload
  Run.write (Log.info ("wrote " ++ Text.ofNat e.payload.length ++ " bytes to " ++ output))
  return e

end Extraction

end Rebundle
