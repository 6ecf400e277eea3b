import Rebundle.Text.Basic

/-!
# Log records

What a computation reports while it runs. A logged value carries the records that were written on
the way to it, in order.
-/

namespace Rebundle

namespace Log

inductive Level where
  | debug | info | warning | error
deriving DecidableEq

namespace Level

def rank : Level → Nat
  | .debug => 10
  | .info => 20
  | .warning => 30
  | .error => 40

def name : Level → String
  | .debug => "DEBUG"
  | .info => "INFO"
  | .warning => "WARNING"
  | .error => "ERROR"

def ofName? (name : Text) : Option Level :=
  [Level.debug, .info, .warning, .error].find? fun level => Text.ofString level.name == name

end Level

structure Record where
  level : Level
  text : Text

def debug (text : Text) : Record := ⟨.debug, text⟩

def info (text : Text) : Record := ⟨.info, text⟩

def warning (text : Text) : Record := ⟨.warning, text⟩

def error (text : Text) : Record := ⟨.error, text⟩

end Log

abbrev Log := List Log.Record

/-- A value with the records written on the way to it. -/
structure Logged (α : Type) where
  value : α
  log : Log

namespace Logged

instance : Monad Logged where
  pure value := ⟨value, []⟩
  bind l f := let next := f l.value; ⟨next.value, l.log ++ next.log⟩

/-- Writes one record. -/
def write (record : Log.Record) : Logged Unit := ⟨(), [record]⟩

end Logged

end Rebundle
