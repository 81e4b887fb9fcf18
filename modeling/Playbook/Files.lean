import Playbook.Value

/-!
# Files

What there is to read under which path, and the parts of a path. Paths have slashes between their
parts, and a path that begins with a slash is absolute.
-/

namespace Playbook

/-- Why a file cannot be read. -/
inductive ReadFault where
  | notFound
  | isDirectory
  /-- The way to the file leads through another file. -/
  | notDirectory
  /-- The file does not hold text. -/
  | notText
deriving DecidableEq, Repr

/-- The wording of a fault. -/
def ReadFault.message : ReadFault → String
  | notFound => "No such file or directory (os error 2)"
  | isDirectory => "Is a directory (os error 21)"
  | notDirectory => "Not a directory (os error 20)"
  | notText => "stream did not contain valid UTF-8"

/-- Whether the file can be opened, be it readable or not. -/
def ReadFault.isOpened : ReadFault → Bool
  | notFound => false
  | isDirectory => true
  | notDirectory => false
  | notText => true

/-- The files that can be read. -/
structure Files where
  read : String → Except ReadFault String

namespace FilePath

/-- The parts of a path between its slashes. -/
def parts (path : String) : List String :=
  (path.toList.splitOn '/').map String.ofList

/-- The last part of a path that is not empty and not a dot. -/
def fileName? (path : String) : Option String :=
  match ((parts path).reverse.dropWhile fun p => p == "" || p == ".").head? with
  | some ".." => none
  | other => other

/-- What stands behind the last dot of the file's name, unless the name begins with that dot. -/
def extension? (path : String) : Option String :=
  (fileName? path).bind fun name =>
    let cs := name.toList
    let behind := (cs.reverse.takeWhile (· != '.')).reverse
    let before := cs.take (cs.length - behind.length - 1)
    if before.isEmpty then none else some (String.ofList behind)

/-- Whether a path begins at the root. -/
def isAbsolute (path : String) : Bool :=
  path.toList.head? == some '/'

/-- A path as seen from a directory. -/
def join (directory path : String) : String :=
  if isAbsolute path || directory = "" then path
  else if directory.toList.getLast? == some '/' then directory ++ path
  else directory ++ "/" ++ path

/-- A path without its last part; empty if there is only one. -/
def parent (path : String) : String :=
  let isFiller := fun p => p == "" || p == "."
  match (parts path).reverse.dropWhile isFiller with
  | _ :: before =>
    let kept := "/".intercalate (before.dropWhile isFiller).reverse
    if kept = "" && isAbsolute path then "/" else kept
  | [] => ""

end FilePath

namespace Files

/-- Whether there is a file under a path. -/
def isFile (files : Files) (path : String) : Bool :=
  match files.read path with
  | .ok _ => true
  | .error fault => fault == .notText

/-- The parts of a path that lead somewhere. -/
def steps (path : String) : List String :=
  (FilePath.parts path).filter fun p => p != "" && p != "."

/-- All directories on the ways to given places. -/
def directories (places : List (List String)) : List (List String) :=
  [] :: places.flatMap fun place => (List.range place.length).map fun n => place.take n

/-- Walks along the parts of a path, from a place whose kind is settled when the walk goes on from
it. All places before the last must be directories; `isFile` says which places are files. -/
def walk (directories : List (List String)) (isFile : List String → Bool) (place : List String) :
    List String → Except ReadFault (List String)
  | [] => .ok place
  | part :: rest =>
    if !directories.contains place then
      .error (if isFile place then .notDirectory else .notFound)
    else if part = "" || part = "." then walk directories isFile place rest
    else if part = ".." then
      if place.isEmpty then .error .notFound else walk directories isFile place.dropLast rest
    else walk directories isFile (place ++ [part]) rest

/-- The files with given paths, relative to one directory, and contents. -/
def ofList (contents : List (String × String)) : Files where
  read path :=
    let places := contents.map fun (p, text) => (steps p, text)
    let directories := directories (places.map Prod.fst)
    let fileAt? := fun (place : List String) => places.find? fun entry => entry.1 == place
    if path = "" || FilePath.isAbsolute path then .error .notFound
    else
      match walk directories (fun place => (fileAt? place).isSome) [] (FilePath.parts path) with
      | .error fault => .error fault
      | .ok place =>
        match fileAt? place with
        | some (_, text) => .ok text
        | none => .error (if directories.contains place then .isDirectory else .notFound)

end Files

end Playbook
