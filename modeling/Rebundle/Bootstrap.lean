import Rebundle.Json.Writer
import Rebundle.Text.Utf8

/-!
# The credential bootstrap

A snippet that runs before a program: when there is neither a credential file nor the environment
variable, it sets the variable to a placeholder, so that the program starts without a login. A first
line that names an interpreter stays in front of it.
-/

namespace Rebundle

structure Bootstrap where
  credentialPath : List Text
  environmentVariable : Text
  placeholder : Text
deriving DecidableEq

namespace Bootstrap

def standard : Bootstrap := ⟨[".factory", "auth.json"], "FACTORY_API_KEY", "sk-offline"⟩

/-- The snippet; every setting in it is an ASCII string literal. -/
def snippet (settings : Bootstrap) : Text :=
  let segments := Text.join "," (settings.credentialPath.map Json.asciiLiteral)
  let environment : Text := "process.env[" ++ Json.asciiLiteral settings.environmentVariable ++ "]"
  "(function()\x7b"
    ++ "const\x7bexistsSync:e\x7d=require('fs'),\x7bjoin:j\x7d=require('path'),"
    ++ "\x7bhomedir:h\x7d=require('os');"
    ++ "const a=j(h()," ++ segments ++ ");"
    ++ "if(!e(a)&&!" ++ environment ++ ")" ++ environment ++ "="
    ++ Json.asciiLiteral settings.placeholder ++ ";"
    ++ "\x7d)();\n"

/-- The interpreter line of a source, closed by a line feed, and what follows it. -/
def cutInterpreter (source : Text) : Text × Text :=
  match Text.after? "#!" source with
  | none => ([], source)
  | some _ =>
      match source.dropWhile (· != ('\n' : CodePoint)) with
      | [] => (source ++ "\n", [])
      | feed :: body => (source.takeWhile (· != ('\n' : CodePoint)) ++ [feed], body)

/-- The source behind the snippet, and the number of bytes up to the end of the snippet. -/
def prepend (settings : Bootstrap) (source : Text) : Except Utf8.EncodeFault (Text × Nat) := do
  let (head, body) := cutInterpreter source
  let front := head ++ settings.snippet
  let encoded ← Utf8.encodeEscaped front
  return (front ++ body, encoded.length)

end Bootstrap

end Rebundle
