import Rebundle.Config
import Rebundle.Document.Edit
import Rebundle.Syntax.ErrorSummary

/-!
# Failures

Everything that can go wrong, with its wording. Some failures are the program's own and end a command
with a message; the others pass through it unchanged.
-/

namespace Rebundle

/-- Why a source cannot be patched. -/
inductive SourceFault where
  | undecodable (fault : Utf8.DecodeFault)
  | unencodable (fault : Utf8.EncodeFault)
  | unusable (fault : SyntaxFault)
deriving DecidableEq

def SourceFault.message : SourceFault → Text
  | .undecodable fault => "source is not valid UTF-8: " ++ fault.message
  | .unencodable fault => "source cannot be encoded as UTF-8: " ++ fault.message
  | .unusable fault => fault.message

/-- Why a published checksum does not vouch for a download. -/
inductive ChecksumFault where
  | emptyChecksum
  | mismatch (expected actual : Text)
deriving DecidableEq

def ChecksumFault.message : ChecksumFault → Text
  | .emptyChecksum => "published checksum is empty"
  | .mismatch expected actual => "sha256 mismatch: expected " ++ expected ++ ", got " ++ actual

/-- Why the timeout of the environment is refused. -/
inductive TimeoutFault where
  | notANumber (given : Text)
  | notPositive (given : Text)
deriving DecidableEq

/-- The environment variable that sets the timeout of requests. -/
def timeoutVariable : Text := "BUNPATCH_TIMEOUT"

def TimeoutFault.message : TimeoutFault → Text
  | .notANumber given => timeoutVariable ++ " must be a number of seconds, got " ++ given.quoted
  | .notPositive given => timeoutVariable ++ " must be positive, got " ++ given.quoted

/-- Why an address cannot be requested. -/
inductive AddressFault where
  | noScheme (form : Text)
  | openBracket
deriving DecidableEq

def AddressFault.message : AddressFault → Text
  | .noScheme form => "unknown url type: " ++ form.quoted
  | .openBracket => "Invalid IPv6 URL"

/-- Why data cannot be written as JSON, or not be summarised. -/
inductive DatumFault where
  | notSerialisable (typeName : String)
  | keyType (typeName : String)
  | unorderedKeys (later earlier : String)
  | unfitKey (typeName : String)
  | uncopied (typeName : String)
  | tooDeep
deriving DecidableEq

def DatumFault.message : DatumFault → Text
  | .notSerialisable typeName => "Object of type " ++ typeName ++ " is not JSON serializable"
  | .keyType typeName => "keys must be str, int, float, bool or None, not " ++ typeName
  | .unorderedKeys later earlier =>
      "'<' not supported between instances of '" ++ later ++ "' and '" ++ earlier ++ "'"
  | .unfitKey typeName => "unhashable type: '" ++ typeName ++ "'"
  | .uncopied typeName => "cannot pickle '" ++ typeName ++ "' object"
  | .tooDeep => "maximum recursion depth exceeded"

/-- Kinds of failures that come in from outside, the system among them; one without a case of its own has its name. -/
inductive ForeignKind where
  | value | runtime | key | system
  | other (name : Text)
deriving DecidableEq

inductive Failure where
  | config (fault : ConfigFault)
  | timeout (fault : TimeoutFault)
  | source (fault : SourceFault) (path : Option Text)
  | fetch (message : Text) (url : Option Text)
  | checksum (fault : ChecksumFault)
  | stage (name : Text) (cause : Failure)
  | unknownDialect (name : Text)
  | address (fault : AddressFault)
  | range (fault : RangeFault)
  | decoding (fault : Utf8.DecodeFault)
  | encoding (fault : Utf8.EncodeFault)
  | system (fault : SystemFault)
  | excess (beyond : Json.Excess)
  | datum (fault : DatumFault)
  | foreign (kind : ForeignKind) (message : Text)

namespace Failure

def message : Failure → Text
  | .config fault => fault.message
  | .timeout fault => fault.message
  | .source fault path =>
      match path with
      | some (c :: rest) => fault.message ++ " (" ++ (c :: rest) ++ ")"
      | _ => fault.message
  | .fetch message _ => message
  | .checksum fault => fault.message
  | .stage name cause => "pass " ++ name ++ " failed: " ++ cause.message
  | .unknownDialect name =>
      "unknown dialect " ++ name.quoted ++ "; expected one of "
        ++ Text.join ", " (Dialect.all.map fun dialect => Text.ofString dialect.name)
  | .address fault => fault.message
  | .range fault => fault.message
  | .decoding fault => fault.message
  | .encoding fault => fault.message
  | .system fault => fault.message
  | .excess beyond => beyond.message
  | .datum fault => fault.message
  | .foreign .key message => message.quoted
  | .foreign _ message => message

/-- Whether a failure is one of the program's own. -/
def isOwn : Failure → Bool
  | .config _ | .timeout _ | .source _ _ | .fetch _ _ | .checksum _ | .stage _ _ => true
  | _ => false

end Failure

end Rebundle
