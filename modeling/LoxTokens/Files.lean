import LoxTokens.Output.Paint
import LoxTokens.Text.Utf8

/-!
Reading files by path.

`Storage` is all that a run of the program knows of files: what is found at each path, whatever
stands behind it. A text is read where the bytes of a file are found and are valid UTF-8.

`Files` is a storage that is listed file by file. Its paths are walked name by name, from the root or
from the working directory. A directory exists where it is listed, where something is listed below
it, and on the way to the working directory.
-/

namespace LoxTokens

/-- Why a file could not be read. -/
inductive ReadFault where
  | missing
  | notADirectory
  | isADirectory
  | nameTooLong
  | notUtf8
  | nulInPath
  | other (reason : Text)
  deriving DecidableEq, Repr

namespace ReadFault

def message : ReadFault → Text
  | .missing => "No such file or directory (os error 2)"
  | .notADirectory => "Not a directory (os error 20)"
  | .isADirectory => "Is a directory (os error 21)"
  | .nameTooLong => "File name too long (os error 36)"
  | .notUtf8 => "stream did not contain valid UTF-8"
  | .nulInPath => "file name contained an unexpected NUL byte"
  | .other reason => reason

end ReadFault

/-- What reading a path gives. -/
abbrev ReadResult := Except ReadFault Text

/-- What is found at each path: the bytes of a file, or why there are none to be had. -/
abbrev Storage := Text → Except ReadFault (List UInt8)

namespace Storage

/-- The text that bytes hold. -/
def decode (bytes : List UInt8) : ReadResult :=
  match Utf8.decode? bytes with
  | some t => .ok t
  | none => .error .notUtf8

/-- The text of the file at a path. -/
def read (storage : Storage) (path : Text) : ReadResult :=
  match storage path with
  | .ok bytes => decode bytes
  | .error fault => .error fault

/-- There are no files. -/
def empty : Storage := fun _ => .error .missing

end Storage

/-- Files by path, each path from the root or from the working directory; a path that ends in a slash
is a directory. -/
structure Files where
  entries : List (Text × List UInt8) := []
  /-- The names that lead from the root to the working directory. -/
  workingDirectory : List Text := ["work"]
  deriving DecidableEq, Repr

/-- A place that a path can lead to. -/
inductive Place where
  /-- A directory, by the names that lead to it from the root. -/
  | directory (names : List Text)
  | file (content : List UInt8)
  deriving DecidableEq, Repr

namespace Files

def names : Text → List Text
  | [] => [[]]
  | c :: rest =>
      if c = '/' then [] :: names rest
      else match names rest with
        | [] => [[c]]
        | name :: more => (c :: name) :: more

/-- The names of the directory at which a path starts. -/
def start (files : Files) (path : Text) : List Text :=
  if path.head? = some '/' then [] else files.workingDirectory

/-- The names that lead from the root to what is listed under a path. -/
def listedNames (files : Files) (path : Text) : List Text :=
  files.start path ++ (names path).filter (!·.isEmpty)

/-- Whether a listed path is a directory. -/
def listsDirectory (path : Text) : Bool := path.getLast? == some '/'

/-- What is found under the given names. -/
def find? (files : Files) (target : List Text) : Option Place :=
  match files.entries.find? fun e => !listsDirectory e.1 && files.listedNames e.1 == target with
  | some e => some (.file e.2)
  | none =>
      if target.isPrefixOf files.workingDirectory ||
          files.entries.any fun e => target.isPrefixOf (files.listedNames e.1) then
        some (.directory target)
      else none

/-- The most bytes of a name. -/
def longestName : Nat := 255

/-- The most bytes of a path. -/
def longestPath : Nat := 4095

/-- One step of a walk: from a place to the one that a name leads to. Nothing is above the root. -/
def enter (files : Files) (place : Place) (name : Text) : Except ReadFault Place :=
  match place with
  | .file _ => .error .notADirectory
  | .directory names =>
      if name = [] ∨ name = ['.'] then .ok place
      else if name = ['.', '.'] then .ok (.directory names.dropLast)
      else if longestName < Text.byteLength name then .error .nameTooLong
      else match files.find? (names ++ [name]) with
        | some found => .ok found
        | none => .error .missing

/-- The place that a path leads to. -/
def walk (files : Files) (path : Text) : Except ReadFault Place :=
  (names path).foldlM files.enter (.directory (files.start path))

/-- What is found at a path. -/
def storage (files : Files) : Storage := fun path =>
  if path = [] then .error .missing
  else if path.contains (Char.ofNat 0) then .error .nulInPath
  else if longestPath < Text.byteLength path then .error .nameTooLong
  else match files.walk path with
    | .ok (.file content) => .ok content
    | .ok (.directory _) => .error .isADirectory
    | .error fault => .error fault

instance : Coe Files Storage := ⟨storage⟩

end Files

end LoxTokens
