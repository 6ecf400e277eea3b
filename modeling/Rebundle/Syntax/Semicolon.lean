import Rebundle.Syntax.Dialect
import Rebundle.Syntax.Rule

/-!
# Where a statement ends

A statement ends with a semicolon, or without one at the end of the source, before a closing brace,
and at the end of a line unless the next line goes on with the statement. Whether a comment behind
the statement still belongs to it depends on whether an operator could follow there: after an
expression it could, after the keyword of a jump or after a name that is being declared it could not.
-/

namespace Rebundle.Semicolon

open Rune

def isBreak (r : Rune) : Bool := r.readable && isLineEnd r.char

def isBlank (r : Rune) : Bool := r.readable && isSpace r.char

/-- Whether one of these characters comes next. -/
def startsWith (chars : String) : List Rune → Bool
  | r :: _ => r.readable && chars.toList.contains r.char
  | [] => false

/-- What comes behind blanks and comments: a slash that opens no comment, a block comment that ended
on the line on which it began, or anything else. -/
inductive Passage where
  | slash
  | inLine (rest : List Rune)
  | behind (rest : List Rune)

/-- The runes behind the close of a block comment, with whether it was closed and whether a line
ended in it. -/
def behindBlock (broken : Bool) : List Rune → Bool × Bool × List Rune
  | [] => (false, broken, [])
  | [r] => (false, broken || isBreak r, [])
  | a :: b :: rest =>
      if isStop a.char then (false, broken, a :: b :: rest)
      else if a.char == '*' && b.char == '/' then (true, broken, rest)
      else behindBlock (broken || isBreak a) (b :: rest)

/-- Passes blanks and comments, of which there are fewer than `bound` runes. With `pausing` it stops
behind the first block comment. -/
def pass (pausing : Bool) : (bound : List Rune) → (broken : Bool) → List Rune → Passage
  | [], _, rest => .behind rest
  | _ :: bound, broken, runes =>
      match runes.dropWhile isBlank with
      | a :: b :: rest =>
          if a.char != '/' then .behind (a :: b :: rest)
          else if b.char == '/' then
            pass pausing bound broken (rest.dropWhile fun r => !(isBreak r || isStop r.char))
          else if b.char == '*' then
            let (closed, broken, rest) := behindBlock broken rest
            if closed && pausing && !startsWith "/" rest then
              if broken then .behind rest else .inLine rest
            else pass pausing bound broken rest
          else .slash
      | [a] => if a.char == '/' then .slash else .behind [a]
      | [] => .behind []

def isLetter (r : Rune) : Bool := r.readable && (r.char.isAlpha || 0x80 ≤ r.char.toNat)

def letterAt : List Rune → Bool
  | r :: _ => isLetter r
  | [] => false

/-- Whether a line goes on with an operator that is a word. -/
def wordOperatorAt (runes : List Rune) : Bool :=
  spells "in".toList runes
    && (!letterAt (runes.drop 2)
      || (spells "stanceof".toList (runes.drop 2) && !letterAt (runes.drop 10)))

/-- Whether a line that begins like this goes on with the statement of the line before, whatever
the dialect. -/
def operatorAt (runes : List Rune) : Bool :=
  if startsWith "+" runes then !startsWith "+" (runes.drop 1)
  else if startsWith "-" runes then !startsWith "-" (runes.drop 1)
  else if startsWith "!" runes then startsWith "=" (runes.drop 1)
  else wordOperatorAt runes

/-- Whether the next line goes on with the statement. -/
def goesOn (runes : List Rune) : Bool :=
  if startsWith "\x60,:;*%><=[(?^|&/" runes then true
  else if startsWith "." runes then !Lexeme.isDigitAt (runes.drop 1)
  else operatorAt runes

/-- Whether the statement ends here without a semicolon. `operand` tells that an operator could
follow. -/
def endsAt (operand : Bool) : (bound : List Rune) → List Rune → Bool
  | _, [] => true
  | [], _ => false
  | _ :: bound, r :: rest =>
      let onward : List Rune → Bool
        | [] => false
        | r :: rest =>
            if startsWith "\x7d" (r :: rest) then true
            else if isBreak r then
              match pass false rest false rest with
              | .slash => false
              | .inLine rest => !goesOn rest
              | .behind rest => !goesOn rest
            else isBlank r && endsAt operand bound rest
      if isStop r.char then true
      else if r.char == '/' then
        match pass true (r :: rest) false (r :: rest) with
        | .slash => false
        | .inLine rest => onward rest
        | .behind rest => (!operand && !startsWith ",=" rest) || onward rest
      else onward (r :: rest)

/-- Whether the next line goes on with the statement, where types may follow. `signature` tells that
a body could follow. -/
def goesOnTyped (operand signature : Bool) (runes : List Rune) : Bool :=
  if startsWith "\x60,.;*%><=?^|&/:" runes then true
  else if startsWith "\x7b" runes then signature
  else if startsWith "([" runes then operand
  else operatorAt runes

/-- Like `endsAt`, where types may follow: a closing brace before a colon closes a pattern, and a
comment on the line belongs to the statement. -/
def endsTypedAt (operand signature : Bool) : List Rune → Bool
  | [] => true
  | r :: rest =>
      if isStop r.char then true
      else if startsWith "\x7d" (r :: rest) then
        !startsWith ":" (rest.dropWhile isBlank) || operand
      else if r.readable && r.char == '\n' then
        match pass false rest false rest with
        | .slash => false
        | .inLine rest => !goesOnTyped operand signature rest
        | .behind rest => !goesOnTyped operand signature rest
      else isBlank r && endsTypedAt operand signature rest

end Semicolon

namespace Rule

/-- Reads nothing, and refuses where no statement can end by itself. `signature` tells that a body
could follow instead. -/
def automaticWith (dialect : Dialect) (operand signature : Bool) : Rule :=
  guard fun s => !s.enclosed &&
    if dialect.hasTypes then Semicolon.endsTypedAt operand signature s.rest
    else Semicolon.endsAt operand s.rest s.rest

def automatic (dialect : Dialect) (operand : Bool) : Rule := automaticWith dialect operand false

/-- A semicolon behind nothing but blanks. -/
def explicit : Rule := fun s =>
  lexemeHere (.token ";") (fun runes => if Semicolon.startsWith ";" runes then 1 else 0) (blanks s)

/-- The ending behind as few comments as possible, of which there are fewer than `bound` runes. -/
def settleWithin (ending : Rule) : (bound : List Rune) → Rule
  | [] => ending
  | _ :: bound => fun s =>
      match ending s with
      | some t => some t
      | none =>
          match comment s with
          | some t => settleWithin ending bound t
          | none => none

/-- The ending behind as few comments as possible. -/
def settle (ending : Rule) : Rule := fun s => settleWithin ending s.rest s

/-- The end of a statement behind an expression (`operand`) or behind something that no operator
follows. -/
def semicolon (dialect : Dialect) (operand : Bool) : Rule :=
  settle (first [automatic dialect operand, explicit])

/-- The end of the signature of a function without a body. -/
def signatureEnd (dialect : Dialect) : Rule :=
  settle (first [automaticWith dialect false true, explicit])

/-- Comments behind a closing brace belong to it when the statement ends by itself behind them. -/
def closingComments (dialect : Dialect) : Rule :=
  optional (within false (settle (automatic dialect true)))

end Rule

end Rebundle
