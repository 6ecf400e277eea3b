import Rebundle.FilePath
import Rebundle.Table
import Rebundle.Text.Printable
import Rebundle.Text.Utf8

/-!
# Disks

A disk holds files and directories at places below a working directory. A place is the row of names
that leads to it; the working directory itself is the empty row.
-/

namespace Rebundle

abbrev Place := List Text

namespace Place

/-- One step of a path: two dots lead up, any other name leads down. -/
def step (place : Place) (name : Text) : Place :=
  if name = ".." then place.dropLast else place ++ [name]

/-- The place that a text leads to from the working directory. A root counts as a name. -/
def ofText (t : Text) : Place :=
  let path := FilePath.ofText t
  (if path.root.isEmpty then path.names else path.root :: path.names).foldl step []

end Place

/-- What stands at a place. -/
inductive Node where
  | file (content : Bytes)
  | directory
deriving DecidableEq

abbrev Disk := Table Place Node

/-- Why the system refuses. -/
inductive SystemCause where
  | noSuchFile | busy | fileExists | notADirectory | isADirectory | invalidArgument
deriving DecidableEq

namespace SystemCause

def number : SystemCause → Nat
  | .noSuchFile => 2
  | .busy => 16
  | .fileExists => 17
  | .notADirectory => 20
  | .isADirectory => 21
  | .invalidArgument => 22

def text : SystemCause → Text
  | .noSuchFile => "No such file or directory"
  | .busy => "Device or resource busy"
  | .fileExists => "File exists"
  | .notADirectory => "Not a directory"
  | .isADirectory => "Is a directory"
  | .invalidArgument => "Invalid argument"

end SystemCause

/-- A refusal with the path it is about, and the path a file should have been moved to. -/
structure SystemFault where
  cause : SystemCause
  path : Text
  target : Option Text
deriving DecidableEq

def SystemFault.message (fault : SystemFault) : Text :=
  "[Errno " ++ Text.ofNat fault.cause.number ++ "] " ++ fault.cause.text ++ ": " ++ fault.path.quoted
    ++ match fault.target with
      | some target => " -> " ++ target.quoted
      | none => []

namespace Disk

/-- What stands at a place; the working directory is always there. -/
def node? (place : Place) (disk : Disk) : Option Node :=
  if place.isEmpty then some .directory else disk.get? place

def isFile (place : Place) (disk : Disk) : Bool :=
  match disk.node? place with
  | some (.file _) => true
  | _ => false

def isDirectory (place : Place) (disk : Disk) : Bool := disk.node? place == some .directory

/-- Whether a file stands on the way to a place. -/
def blocked (place : Place) (disk : Disk) : Bool :=
  (List.range place.length).any fun depth => disk.isFile (place.take depth)

/-- Whether a path ends in a slash, which asks for a directory. -/
def endsInSlash (path : Text) : Bool := path.getLast? = some ('/' : CodePoint)

/-- What stands where a path leads. -/
def find (path : Text) (disk : Disk) : Except SystemCause Node :=
  let place := Place.ofText path
  if path.isEmpty then .error .noSuchFile
  else if disk.blocked place || (endsInSlash path && disk.isFile place) then .error .notADirectory
  else
    match disk.node? place with
    | some node => .ok node
    | none => .error .noSuchFile

/-- The content of a file. -/
def read (path : Text) (disk : Disk) : Except SystemFault Bytes :=
  match disk.find path with
  | .ok (.file content) => .ok content
  | .ok .directory => .error ⟨.isADirectory, path, none⟩
  | .error cause => .error ⟨cause, path, none⟩

def put (place : Place) (node : Node) (disk : Disk) : Disk := Table.put place node disk

/-- The paths that end with a name of this one; `walked` is what stands before, backwards. -/
def levelsFrom (walked : Text) : Text → List Text
  | [] => []
  | c :: rest =>
      let ends := match rest with
        | [] => true
        | next :: _ => next = '/'
      let more := levelsFrom (c :: walked) rest
      if c ≠ '/' && ends then (c :: walked).reverse :: more else more

/-- The paths of the directories on the way along a path, itself the last. -/
def levels (path : Text) : List Text := levelsFrom [] path

/-- Makes the missing directories of these levels, an outer one before an inner one. A file that
stands in the way is there already when it is the last level, and no directory for the next one. -/
def makeLevels : List Text → Disk → Except SystemFault Unit × Disk
  | [], disk => (.ok (), disk)
  | level :: rest, disk =>
      match disk.node? (Place.ofText level) with
      | some .directory => makeLevels rest disk
      | none => makeLevels rest (disk.put (Place.ofText level) .directory)
      | some (.file _) =>
          match rest with
          | [] => (.error ⟨.fileExists, level, none⟩, disk)
          | next :: _ => (.error ⟨.notADirectory, next, none⟩, disk)

/-- Makes a directory with the directories above it. -/
def makeDirectories (path : Text) (disk : Disk) : Except SystemFault Unit × Disk :=
  makeLevels (levels path) disk

/-- Makes a directory with the directories above it, unless it is there. A file on the way is
reported for the whole path. -/
def ensureDirectory (path : FilePath) (disk : Disk) : Except SystemFault Unit × Disk :=
  if disk.blocked (Place.ofText path.text) then (.error ⟨.notADirectory, path.text, none⟩, disk)
  else disk.makeDirectories path.text

/-- The name that stands for the temporary file of a write. -/
def temporary : Text := "<tmp>"

/-- The path of the directory in which a path lies. -/
def directoryOf (path : Text) : Text :=
  let slash : CodePoint := '/'
  let lead := (path.reverse.dropWhile (· != slash)).reverse
  let bare := (lead.reverse.dropWhile (· == slash)).reverse
  if lead.isEmpty then "." else if bare.isEmpty then lead else bare

/-- The last name of a path, also when it is one or two dots. -/
def lastName (path : Text) : Text :=
  (FilePath.piecesFrom [] path).reverse.find? (fun name => !name.isEmpty) |>.getD []

/-- Puts the content of a finished temporary file in the place of its target. -/
def settle (path : Text) (content : Bytes) (disk : Disk) : Except SystemFault Unit × Disk :=
  if path.isEmpty then (.error ⟨.noSuchFile, temporary, some path⟩, disk)
  else if lastName path = "." || lastName path = ".." then
    (.error ⟨.busy, temporary, some path⟩, disk)
  else if endsInSlash path then (.error ⟨.notADirectory, temporary, some path⟩, disk)
  else if disk.isDirectory (Place.ofText path) then
    (.error ⟨.isADirectory, temporary, some path⟩, disk)
  else (.ok (), disk.put (Place.ofText path) (.file content))

/-- Adds to the file at a place. -/
def extend (place : Place) (more : Bytes) (disk : Disk) : Disk :=
  match disk.node? place with
  | some (.file content) => disk.put place (.file (content ++ more))
  | _ => disk

/-- Takes away what stands at a place. -/
def unlink (place : Place) (disk : Disk) : Disk := disk.filter fun entry => entry.1 != place

/-- Moves the temporary file at a place to its target. It stays where it is when it cannot be moved. -/
def move (place : Place) (path : Text) (disk : Disk) : Except SystemFault Unit × Disk :=
  match disk.node? place with
  | some (.file content) =>
      match settle path content (disk.unlink place) with
      | (.ok (), after) => (.ok (), after)
      | (.error fault, _) => (.error fault, disk)
  | _ => (.error ⟨.noSuchFile, temporary, some path⟩, disk)

/-- Why a directory that was emptied cannot be removed itself: two dots lead through a directory that is gone, and
neither the root nor the working directory can be removed. -/
def refusal? (path : FilePath) : Option SystemCause :=
  let last := lastName path.text
  if last = ".." then some .noSuchFile
  else if last.isEmpty then some .busy
  else if (Place.ofText path.text).isEmpty then some .invalidArgument
  else none

/-- Removes whatever stands at a place and below it. -/
def removeTree (path : FilePath) (disk : Disk) : Except SystemFault Unit × Disk :=
  let place := Place.ofText path.text
  let rest := disk.filter fun entry => !place.isPrefixOf entry.1
  match refusal? path with
  | some cause => (.error ⟨cause, path.text, none⟩, rest)
  | none => (.ok (), rest)

end Disk

end Rebundle
