import Rebundle.Failure
import Rebundle.Sha256
import Rebundle.Text.Case
import Rebundle.Text.Blank

/-!
# Downloads

Where the files of a release are published, and the check of a file against its published digest.
-/

namespace Rebundle

structure Download where
  binaryUrl : Text
  sha256Url : Text
  ripgrepUrl : Text
  ripgrepSha256Url : Text
  version : Text
  binaryName : Text
deriving DecidableEq

/-- The machine that a release is made for. -/
structure Machine where
  platform : Text
  architecture : Text
  hasAvx2 : Bool
deriving DecidableEq

namespace Machine

def standard : Machine := ⟨"windows", "x64", true⟩

def binaryName (machine : Machine) : Text :=
  if machine.platform = "windows" then "droid.exe" else "droid"

/-- The directory of the binary: a machine of the x64 kind without AVX2 has a build of its own. -/
def build (machine : Machine) : Text :=
  if machine.architecture = "x64" && !machine.hasAvx2 then machine.architecture ++ "-baseline"
  else machine.architecture

end Machine

namespace Download

/-- The address below which releases are published. -/
def standardBase : Text := "https://downloads.factory.ai"

/-- The addresses of a release. -/
def ofVersion (base version : Text) (machine : Machine) : Download :=
  let slash : CodePoint := '/'
  let base := (base.reverse.dropWhile (· == slash)).reverse
  let binary := Text.join "/"
    [base, "factory-cli/releases", version, machine.platform, machine.build, machine.binaryName]
  let ripgrep := Text.join "/" [base, "ripgrep", machine.platform, machine.architecture, "rg"]
  { binaryUrl := binary
    sha256Url := binary ++ ".sha256"
    ripgrepUrl := ripgrep
    ripgrepSha256Url := ripgrep ++ ".sha256"
    version := version
    binaryName := machine.binaryName }

end Download

namespace Checksum

/-- The digest of data whose published digest, the first word of a text, is the same. -/
def verify (data : Bytes) (published : Text) : Except ChecksumFault Text :=
  match published.words with
  | [] => .error .emptyChecksum
  | first :: _ =>
      let expected := first.lower
      let actual := Sha256.hexDigest data
      if actual = expected then .ok actual else .error (.mismatch expected actual)

/-- The check with its record. -/
def report (data : Bytes) (published : Text) : Logged (Except Failure Text) :=
  match verify data published with
  | .ok digest => ⟨.ok digest, [Log.info ("sha256 verified: " ++ digest)]⟩
  | .error fault => ⟨.error (.checksum fault), []⟩

end Checksum

end Rebundle
