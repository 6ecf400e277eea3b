import Rebundle.Host

/-!
# Runs

A run works on the disk of a host, writes log records, asks a remote and reads a clock, and it may fail;
what it has done until then stays done. The remote answers each question with what it likes, so an answer may
depend on how many questions came before.
-/

namespace Rebundle

/-- A request that was sent: its address, how long it may take, and who asks. -/
structure Request where
  url : Text
  timeout : Number
  agent : Text
deriving DecidableEq

/-- The answer to a question, with the requests and the records that it took. -/
structure Exchange (α : Type) where
  result : Except Failure α
  requests : List Request
  log : Log

/-- A remote source of data: the answer to a question about an address, given the number of questions
before it. -/
structure Remote where
  bytes : (url : Text) → (before : Nat) → Exchange Bytes
  text : (url : Text) → (before : Nat) → Exchange Text

/-- What a run works on. -/
structure World where
  host : Host
  disk : Disk
  log : Log
  requests : List Request
  questions : Nat
  ticks : Nat

namespace World

/-- The world of a disk at the beginning of a run. -/
def ofDisk (disk : Disk) : World := ⟨Host.standard, disk, [], [], 0, 0⟩

end World

abbrev Run (α : Type) := ExceptT Failure (StateM World) α

namespace Run

def write (record : Log.Record) : Run Unit :=
  modify fun world => { world with log := world.log ++ [record] }

/-- What a computation without a world gives, with its records. -/
def ofLogged (logged : Logged (Except Failure α)) : Run α := do
  modify fun world => { world with log := world.log ++ logged.log }
  MonadExcept.ofExcept logged.value

def ofExcept (result : Except ε α) (failure : ε → Failure) : Run α :=
  MonadExcept.ofExcept (result.mapError failure)

/-- The outcome of a run, which may be a failure; what the run did stays done. -/
def attempt (run : Run α) : Run (Except Failure α) := fun world =>
  let (result, world) := run world
  (.ok result, world)

/-- An operation on the disk; what it changes before it fails stays changed. -/
def onDisk (operation : Disk → Except SystemFault α × Disk) : Run α := do
  let world ← get
  let (result, disk) := operation world.disk
  set { world with disk }
  ofExcept result .system

/-- A change to the disk that cannot fail. -/
def change (operation : Disk → Disk) : Run Unit :=
  modify fun world => { world with disk := operation world.disk }

/-- Asks a remote. -/
def ask (question : (before : Nat) → Exchange α) : Run α := do
  let world ← get
  let exchange := question world.questions
  set { world with
    requests := world.requests ++ exchange.requests
    questions := world.questions + 1
    log := world.log ++ exchange.log }
  MonadExcept.ofExcept exchange.result

/-- The time, in ticks of the clock. Reading it takes one tick. -/
def time : Run Nat :=
  modifyGet fun world => (world.ticks, { world with ticks := world.ticks + 1 })

end Run

end Rebundle
