import Rebundle.Syntax.Lexeme
import Rebundle.Syntax.Sprout

/-!
# Grammar rules

A rule reads a construct at the front of the source, or refuses it and leaves everything as it was.
What it reads it adds to the row of sprouts built so far. Rules are put together in sequence
(`Rule.all`) and by ordered choice (`Rule.first`, where the first rule that reads something wins).
Blanks are added to the gap before the next leaf; comments become leaves of the construct that is
being read. A string stands for the rule that reads this keyword or punctuation.
-/

namespace Rebundle

namespace Rule

/-- How far a reading has come. `built` holds the row of sprouts of the construct being read, the
newest first. Inside brackets (`enclosed`) the end of a line ends no statement. -/
structure State where
  rest : List Rune
  gap : Nat
  built : List Sprout
  enclosed : Bool

end Rule

def Rule := Rule.State → Option Rule.State

namespace Rule

/-- Reads nothing. -/
def skip : Rule := fun s => some s

/-- Refuses. -/
def refuse : Rule := fun _ => none

/-- The rules one after the other. -/
def all : List Rule → Rule
  | [] => skip
  | rule :: rest => fun s =>
      match rule s with
      | some t => all rest t
      | none => none

/-- The first of the rules that does not refuse. -/
def first : List Rule → Rule
  | [] => refuse
  | rule :: rest => fun s =>
      match rule s with
      | some t => some t
      | none => first rest s

/-- The rule if it can be read, otherwise nothing. -/
def optional (rule : Rule) : Rule := first [rule, skip]

/-- The rule as often as it can be read, at most once for every rune of `bound`. -/
def manyWithin : (bound : List Rune) → Rule → Rule
  | [], _ => skip
  | _ :: bound, rule => fun s =>
      match rule s with
      | some t => manyWithin bound rule t
      | none => some s

/-- The rule as often as it can be read. A rule that reads something can be read at most once for
every rune that is left. -/
def many (rule : Rule) : Rule := fun s => manyWithin s.rest rule s

def many1 (rule : Rule) : Rule := all [rule, many rule]

/-- Reads nothing, and refuses where the rule can be read. -/
def unlessAhead (rule : Rule) : Rule := fun s =>
  match rule s with
  | some _ => none
  | none => some s

/-- Reads nothing, and refuses where the rule refuses. -/
def ahead (rule : Rule) : Rule := fun s => (rule s).map fun _ => s

/-- Reads nothing, and refuses where the condition fails. -/
def guard (condition : State → Bool) : Rule := fun s => if condition s then some s else none

/-- The rule with line ends ending statements or not, as in `enclosed`. -/
def within (enclosed : Bool) (rule : Rule) : Rule := fun s =>
  (rule { s with enclosed }).map fun t => { t with enclosed := s.enclosed }

/-- Passes the blanks ahead. -/
def blanks (s : State) : State :=
  let space := s.rest.takeWhile fun r => r.readable && Rune.isSpace r.char
  { s with rest := s.rest.drop space.length, gap := s.gap + Rune.bytes space }

/-- The next `count` runes as a leaf. -/
def leafOf (kind : Kind) (count : Nat) (s : State) : State :=
  { s with
    rest := s.rest.drop count
    gap := 0
    built := .leaf kind none s.gap (Rune.bytes (s.rest.take count)) :: s.built }

/-- The lexeme at this very place. -/
def lexemeHere (kind : Kind) (measure : List Rune → Nat) : Rule := fun s =>
  match measure s.rest with
  | 0 => none
  | count + 1 => some (leafOf kind (count + 1) s)

/-- A comment, perhaps behind blanks. -/
def comment : Rule := fun s => lexemeHere .comment Lexeme.comment (blanks s)

/-- Passes the blanks and comments ahead. -/
def trivia (s : State) : State :=
  match many comment s with
  | some t => blanks t
  | none => blanks s

/-- The lexeme ahead, which is not empty. -/
def lexeme (kind : Kind) (measure : List Rune → Nat) : Rule := fun s =>
  lexemeHere kind measure (trivia s)

/-- This keyword, which no name goes on from. -/
def word (text : String) : Rule :=
  let letters := text.toList
  lexeme (.token text) fun runes =>
    if Rune.spells letters runes && Rune.nameLength runes == letters.length then letters.length
    else 0

/-- This punctuation, whatever follows it. -/
def sign (text : String) : Rule :=
  let letters := text.toList
  lexeme (.token text) fun runes => if Rune.spells letters runes then letters.length else 0

/-- The rule of a keyword or of punctuation. -/
def token (text : String) : Rule :=
  match text.toList with
  | c :: _ => if c.isAlpha then word text else sign text
  | [] => skip

instance : Coe String Rule := ⟨token⟩

/-- One of these operators, and not the beginning of a longer one. -/
def operator (texts : List String) : Rule := fun s =>
  let ahead := trivia s
  let letters := Lexeme.operator ahead.rest
  if texts.any fun text => text.toList == letters then
    lexemeHere (.token (String.ofList letters)) (fun _ => letters.length) ahead
  else none

/-- A construct: what the rule reads becomes the children of one node. -/
def node (kind : Kind) (body : Rule) : Rule := fun s =>
  let s := trivia s
  (body { s with built := [] }).map fun t =>
    { t with built := .branch kind none t.built.reverse :: s.built }

/-- A construct that begins with the one read last. -/
def wrap (kind : Kind) (body : Rule) : Rule := fun s =>
  match s.built with
  | [] => none
  | last :: before =>
      (body { s with built := [last] }).map fun t =>
        { t with built := .branch kind none t.built.reverse :: before }

/-- Gives the construct read last a role. -/
def assign (role : Role) : Rule := fun s =>
  match s.built with
  | [] => none
  | last :: before => some { s with built := last.inRole role :: before }

/-- What the rule reads, in a role. -/
def field (role : Role) (rule : Rule) : Rule := all [rule, assign role]

/-- A construct that begins with the one read last, which plays a role in it. -/
def wrapAs (role : Role) (kind : Kind) (body : Rule) : Rule :=
  wrap kind (all [assign role, body])

/-- Refuses unless the construct read last is of one of these kinds. -/
def lastIs (kinds : List Kind) : Rule :=
  guard fun s =>
    match s.built with
    | last :: _ => kinds.contains last.kind
    | [] => false

/-- The rule once or more, with commas between. -/
def separated (rule : Rule) : Rule := all [rule, many (all [",", rule])]

/-- The rule any number of times, with commas between, and perhaps one more comma. -/
def listed (rule : Rule) : Rule := optional (all [separated rule, optional ","])

/-- Like `listed`, but entries may be left out. -/
def sparse (rule : Rule) : Rule := all [optional rule, many (all [",", optional rule])]

/-- The rule between brackets. -/
def between (opening : String) (rule : Rule) (closing : String) : Rule :=
  all [opening, within true rule, closing]

/-- Whether a line ends between here and the next token, comments apart. -/
def breaksLine (s : State) : Bool :=
  (s.rest.takeWhile fun r => Rune.isSpace r.char).any fun r => Rune.isLineEnd r.char

/-- Refuses where the next token stands on another line and the line end may end a statement. -/
def sameLine : Rule := guard fun s => s.enclosed || !breaksLine s

end Rule

end Rebundle
