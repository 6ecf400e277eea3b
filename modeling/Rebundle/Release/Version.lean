import Rebundle.World

/-!
# Versions

The install script announces the latest version as the value of a variable. Where it cannot be
found out, a fallback may stand in for it.
-/

namespace Rebundle.Version

/-- The address of the install script. -/
def standardScript : Text := "https://app.factory.ai/cli"

def opening : Text := "VER=\""

/-- The value that an announcement at the very front gives: characters up to a quote, at least one. -/
def atFront? (script : Text) : Option Text :=
  match Text.after? opening script with
  | none => none
  | some rest =>
      match Text.cut? '"' rest with
      | some (c :: value, _) => some (c :: value)
      | _ => none

/-- The version that a script announces first. -/
def announced? : Text → Option Text
  | [] => none
  | c :: rest => (atFront? (c :: rest)).orElse fun _ => announced? rest

/-- The version that the script of an exchange announces. -/
def ofScript (url : Text) (script : Except Failure Text) : Except Failure Text := do
  match announced? (← script) with
  | some version => return version
  | none => throw (.fetch ("no version announced by " ++ url) (some url))

/-- The version in use: the announced one, or the fallback when a fetch fails. -/
def settle (fallback : Option Text) : Except Failure Text → Logged (Except Failure Text)
  | .ok version =>
      ⟨.ok version, [Log.info ("latest published version is " ++ version)]⟩
  | .error (.fetch message url) =>
      match fallback with
      | some version =>
          ⟨.ok version, [Log.warning
            ("version discovery failed (" ++ message ++ "); using fallback " ++ version)]⟩
      | none => ⟨.error (.fetch message url), []⟩
  | .error failure => ⟨.error failure, []⟩

/-- The latest version that a remote tells. -/
def latest (url : Text) (script : (before : Nat) → Exchange Text) (fallback : Option Text) :
    Run Text := do
  let outcome ← Run.attempt (Run.ask script)
  Run.ofLogged (settle fallback (ofScript url outcome))

end Rebundle.Version
