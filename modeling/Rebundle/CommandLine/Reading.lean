import Rebundle.CommandLine.Words

/-!
# Reading a command line

Words are read from the left. A switch that takes a value takes the operand behind it, and every other
operand is for the command. What is read is acted on at once, so a request for help counts even in
front of a mistake.
-/

namespace Rebundle.CommandLine

/-- Something that was read. -/
inductive Item where
  | flag (switch : Switch)
  | setting (switch : Switch) (value : Text)
  | operand (t : Text)
  | extra
  | broken

/-- The items of words, of which `left` operands are still wanted. Two dashes belong to the operand on
either side of them; `behindOperand` tells that one stands before. -/
def items (left : Nat) (behindOperand : Bool) : List Word → List Item
  | [] => []
  | .operand t :: rest =>
      match left with
      | 0 => .extra :: items 0 false rest
      | left + 1 => .operand t :: items left true rest
  | .divider :: rest =>
      let wanted := match left, rest with
        | _ + 1, .operand _ :: _ => true
        | _, _ => false
      if behindOperand || wanted then items left false rest else .extra :: items left false rest
  | .unknown :: rest => .extra :: items left false rest
  | .malformed :: _ => [.broken]
  | .flags switches strange :: rest =>
      switches.map .flag ++ (if strange then [.extra] else []) ++ items left false rest
  | .switch switch (some value) :: rest => .setting switch value :: items left false rest
  | .switch switch none :: rest =>
      if switch.takesValue then
        match rest with
        | .operand t :: rest => .setting switch t :: items left false rest
        | _ => [.broken]
      else .flag switch :: items left false rest

/-- What was given for a command. -/
structure Given where
  operands : List Text
  flags : List Text
  settings : List (Text × Text)

namespace Given

/-- The value that a setting was given last. -/
def setting? (name : String) (given : Given) : Option Text :=
  given.settings.reverse.lookup (Text.ofString name)

def has (name : String) (given : Given) : Bool := given.flags.contains (Text.ofString name)

end Given

/-- Collects items up to the end, unless one of them ends the reading. `accepts` checks the value of a
setting. -/
def collect (accepts : Text → Text → Bool) (given : Given) : List Item → Except Exit Given
  | [] => .ok given
  | .operand t :: rest => collect accepts { given with operands := given.operands ++ [t] } rest
  | .flag switch :: rest =>
      if switch = Switch.help then .error .help
      else collect accepts { given with flags := given.flags ++ [switch.name] } rest
  | .setting switch value :: rest =>
      if accepts switch.name value then
        collect accepts { given with settings := given.settings ++ [(switch.name, value)] } rest
      else .error .misuse
  | .extra :: rest =>
      match collect accepts given rest with
      | .error exit => .error exit
      | .ok _ => .error .misuse
  | .broken :: _ => .error .misuse

/-- Reads the words of a command that wants so many operands. -/
def read (switches : List Switch) (operands : Nat) (accepts : Text → Text → Bool)
    (texts : List Text) : Except Exit Given := do
  let words ← words switches texts
  let given ← collect accepts ⟨[], [], []⟩ (items operands false words)
  if given.operands.length < operands then throw .misuse
  return given

end Rebundle.CommandLine
