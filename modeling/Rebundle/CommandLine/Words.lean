import Rebundle.Text.Blank

/-!
# Words of a command line

A word is an operand or names switches: in full, by the beginning of a long name that fits no other
one, or by letters, several of them behind one dash. A word that looks like a negative number or that
holds a blank and names nothing is an operand, and so is every word behind two dashes.
-/

namespace Rebundle.CommandLine

/-- How a command line ends without a command. -/
inductive Exit where
  | help
  | misuse
deriving DecidableEq

def Exit.code : Exit → Nat
  | .help => 0
  | .misuse => 2

/-- Something that may be switched by its long name, or by a letter if it takes no value. -/
structure Switch where
  name : Text
  letter? : Option Text
  takesValue : Bool
deriving DecidableEq

namespace Switch

def flag (name : String) : Switch := ⟨name, none, false⟩

def setting (name : String) : Switch := ⟨name, none, true⟩

def help : Switch := ⟨"--help", some "-h", false⟩

def spellings (switch : Switch) : List Text := switch.letter?.toList ++ [switch.name]

end Switch

inductive Word where
  | operand (t : Text)
  /-- Two dashes, behind which only operands follow. -/
  | divider
  | switch (switch : Switch) (value? : Option Text)
  /-- Flags whose letters stand behind one dash, perhaps before letters that mean nothing. -/
  | flags (switches : List Switch) (strange : Bool)
  | unknown
  /-- A switch with a value that it does not take. -/
  | malformed

/-- Every spelling with its switch. -/
def spellings (switches : List Switch) : List (Text × Switch) :=
  switches.flatMap fun switch => switch.spellings.map (·, switch)

def named? (switches : List Switch) (t : Text) : Option Switch :=
  (spellings switches).lookup t

/-- The flags of a row of letters up to one that means nothing, and whether there is such a letter. A
letter has no value, and a dash is no letter. -/
def letters (switches : List Switch) : Text → Option (List Switch × Bool)
  | [] => some ([], false)
  | c :: rest =>
      if c = '-' then none
      else
        match named? switches ['-', c] with
        | none => some ([], true)
        | some switch =>
            if switch.takesValue || rest.head? = some ('=' : CodePoint) then none
            else (letters switches rest).map fun (more, strange) => (switch :: more, strange)

/-- The word of a switch with the rest of the word behind its name, where more letters may follow a
letter. -/
def found (switches : List Switch) (isLetter : Bool) (switch : Switch) : (behind? : Option Text) → Word
  | none => .switch switch none
  | some value =>
      if switch.takesValue then .switch switch (some value)
      else if isLetter && !value.isEmpty then
        match letters switches value with
        | some (more, strange) => .flags (switch :: more) strange
        | none => .malformed
      else .malformed

/-- The switches that a word may abbreviate, with what stands behind the abbreviation, and whether it
is a letter. -/
def abbreviated (switches : List Switch) (t : Text) : List (Bool × Switch × Option Text) :=
  match Text.after? "--" t with
  | some _ =>
      let (lead, value?) : Text × Option Text := match Text.cut? '=' t with
        | some (lead, value) => (lead, some value)
        | none => (t, none)
      (spellings switches).filterMap fun (spelling, switch) =>
        if lead.isPrefixOf spelling then some (false, switch, value?) else none
  | none =>
      (spellings switches).filterMap fun (spelling, switch) =>
        if spelling = t.take 2 then some (true, switch, some (t.drop 2))
        else if t.isPrefixOf spelling then some (false, switch, none)
        else none

def digitsOnly (t : Text) : Bool := !t.isEmpty && t.all fun c => c.digit?.isSome

/-- Whether a word is a dash and digits, perhaps with a point in front of the last of them. -/
def isNegativeNumber (t : Text) : Bool :=
  let t := if t.getLast? = some ('\n' : CodePoint) then t.dropLast else t
  match t with
  | dash :: size =>
      dash = '-' && (digitsOnly size
        || match Text.cut? '.' size with
          | some (whole, places) => (whole.isEmpty || digitsOnly whole) && digitsOnly places
          | none => false)
  | [] => false

/-- The word that a text is, unless it abbreviates two switches. -/
def wordOf (switches : List Switch) (t : Text) : Except Exit Word :=
  if t.head? != some ('-' : CodePoint) then .ok (.operand t)
  else
    match named? switches t with
    | some switch => .ok (.switch switch none)
    | none =>
        if t.length = 1 then .ok (.operand t)
        else
          let given? := (Text.cut? '=' t).bind fun (lead, value) =>
            (named? switches lead).map fun switch => (switch, value)
          match given? with
          | some (switch, value) => .ok (found switches false switch (some value))
          | none =>
              match abbreviated switches t with
              | [(isLetter, switch, behind?)] => .ok (found switches isLetter switch behind?)
              | _ :: _ :: _ => .error .misuse
              | [] =>
                  .ok (if isNegativeNumber t || t.contains (' ' : CodePoint) then .operand t
                    else .unknown)

/-- The words of a command line. -/
def words (switches : List Switch) : List Text → Except Exit (List Word)
  | [] => .ok []
  | t :: rest =>
      if t = "--" then .ok (.divider :: rest.map .operand)
      else do
        let word ← wordOf switches t
        return word :: (← words switches rest)

end Rebundle.CommandLine
