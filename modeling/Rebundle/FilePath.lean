import Rebundle.Text.Basic

/-!
# File paths

A path is a row of names, perhaps behind a root. Its text is normal: single slashes, and no dots but
those of an empty path.
-/

namespace Rebundle

structure FilePath where
  root : Text
  names : List Text
deriving DecidableEq

namespace FilePath

/-- The pieces of a text between slashes. -/
def piecesFrom (piece : Text) : Text → List Text
  | [] => [piece.reverse]
  | c :: rest => if c = '/' then piece.reverse :: piecesFrom [] rest else piecesFrom (c :: piece) rest

/-- The names in a text: its pieces without the empty ones and single dots. -/
def namesOf (t : Text) : List Text := (piecesFrom [] t).filter fun name => !name.isEmpty && name != "."

/-- The root of a text: exactly two slashes are a root of their own, any other number of them are
one. -/
def rootOf (t : Text) : Text :=
  match (t.takeWhile (· = ('/' : CodePoint))).length with
  | 0 => []
  | 2 => "//"
  | _ => "/"

def ofText (t : Text) : FilePath := ⟨rootOf t, namesOf t⟩

def text (path : FilePath) : Text :=
  if path.root.isEmpty && path.names.isEmpty then "." else path.root ++ Text.join "/" path.names

def parent (path : FilePath) : FilePath := { path with names := path.names.dropLast }

/-- The path of a file in a directory; a path with a root stays as it is. -/
def child (directory : FilePath) (name : Text) : FilePath :=
  let path := ofText name
  if path.root.isEmpty then { directory with names := directory.names ++ path.names } else path

end FilePath

end Rebundle
