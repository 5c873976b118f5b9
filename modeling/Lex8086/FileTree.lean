import Lex8086.SourceFile

namespace Lex8086

inductive Entry where
  | file (bytes : ByteArray)
  | folder

/-- Entries under the names that lead to them; the latest entry of a place counts. -/
structure FileTree where
  entries : List (List String × Entry)

namespace SystemError

def noSuchFile : SystemError := ⟨true, "No such file or directory (os error 2)"⟩

def notADirectory : SystemError := ⟨false, "Not a directory (os error 20)"⟩

def isADirectory : SystemError := ⟨false, "Is a directory (os error 21)"⟩

def nameTooLong : SystemError := ⟨false, "File name too long (os error 36)"⟩

def nulInName : SystemError := ⟨false, "file name contained an unexpected NUL byte"⟩

end SystemError

def pathPieces (path : String) : List String := (path.toList.splitOn '/').map String.ofList

def staysHere (piece : String) : Bool := piece == "" || piece == "."

namespace FileTree

def empty : FileTree := ⟨[]⟩

def entry? (t : FileTree) (names : List String) : Option Entry :=
  if names.isEmpty then some .folder else t.entries.lookup names

def addFolder (t : FileTree) (names : List String) : FileTree :=
  match t.entry? names with
  | some _ => t
  | none => ⟨(names, .folder) :: t.entries⟩

/-- Folders on the way to an entry are made where they are missing. -/
def add (t : FileTree) (path : String) (entry : Entry) : FileTree :=
  let names := (pathPieces path).filter fun piece => !staysHere piece
  let parents := (List.range names.length).map fun n => names.take n
  ⟨(names, entry) :: (parents.foldl addFolder t).entries⟩

/-- A place on a path: names from the working directory on, or somewhere above it, where no name
is known. -/
abbrev Place := Option (List String)

def entryAt (t : FileTree) : Place → Option Entry
  | some names => t.entry? names
  | none => some .folder

def parent : Place → Place
  | some names => if names.isEmpty then none else some names.dropLast
  | none => none

def descend (t : FileTree) (place : Place) (name : String) : Except SystemError Place :=
  if 255 < name.utf8ByteSize then .error .nameTooLong
  else match place with
    | none => .error .noSuchFile
    | some names => match t.entry? (names ++ [name]) with
      | some _ => .ok (some (names ++ [name]))
      | none => .error .noSuchFile

/-- Every piece, a dot or an empty one too, asks for a folder to start from. -/
def follow (t : FileTree) (place : Place) (piece : String) : Except SystemError Place :=
  match t.entryAt place with
  | some .folder =>
    if staysHere piece then .ok place
    else if piece == ".." then .ok (parent place)
    else t.descend place piece
  | _ => .error .notADirectory

/-- Where a path starts: an absolute one leaves the tree. -/
def startOf (path : String) : Place := if path.toList.head? == some '/' then none else some []

def read (t : FileTree) (path : String) : Except SystemError ByteArray :=
  if path.toList.contains '\x00' then .error .nulInName
  else if path.isEmpty then .error .noSuchFile
  else if 4096 ≤ path.utf8ByteSize then .error .nameTooLong
  else match (pathPieces path).foldlM t.follow (startOf path) with
    | .error e => .error e
    | .ok place => match t.entryAt place with
      | some (.file bytes) => .ok bytes
      | some .folder => .error .isADirectory
      | none => .error .noSuchFile

end FileTree

end Lex8086
