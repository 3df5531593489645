import UnitySharp.Json.Basic

/-!
# Paths and files

Paths, and what a run asks of the files they lead to.
-/

/-! ## Paths

A path is a root, which is empty for a relative path, and the names along the way.  Empty names and
single dots say nothing and are left out; the empty path is the current directory.
-/

namespace UnitySharp.CommandLine

structure DiskPath where
  root : String
  parts : List String
deriving DecidableEq, Repr

namespace DiskPath

def splitNames (s : String) : List String :=
  (s.splitOn "/").filter fun part => part != "" && part != "."

/-- The root of a path: exactly two slashes in front are kept, any other number is one. -/
def rootOf : List Char → String
  | '/' :: '/' :: '/' :: _ => "/"
  | '/' :: '/' :: _ => "//"
  | '/' :: _ => "/"
  | _ => ""

def ofText (s : String) : DiskPath :=
  { root := rootOf s.toList, parts := splitNames s }

def text (path : DiskPath) : String :=
  if path.root == "" && path.parts.isEmpty then "." else path.root ++ "/".intercalate path.parts

def name (path : DiskPath) : String :=
  path.parts.getLast?.getD ""

def parent (path : DiskPath) : DiskPath :=
  { path with parts := path.parts.dropLast }

def join (path other : DiskPath) : DiskPath :=
  if other.root == "" then { path with parts := path.parts ++ other.parts } else other

/-- The name up to its last dot, unless the dot is its first or last character. -/
def stemOf (name : String) : String :=
  let cs := name.toList
  let suffix := cs.reverse.takeWhile (· != '.')
  let stem := (cs.reverse.drop (suffix.length + 1)).reverse
  if suffix.isEmpty || stem.isEmpty then name else String.ofList stem

def stem (path : DiskPath) : String :=
  stemOf path.name

def withSuffix (path : DiskPath) (suffix : String) : DiskPath :=
  { path with parts := path.parts.dropLast ++ [path.stem ++ suffix] }

end DiskPath

/-! ## The files around a run

What a run asks of the files around it.  The same run works on real files and on files held in
memory.
-/

inductive FileFault where
  | notFound
  | exists
  | notDirectory
  | isDirectory
  | denied
  | nameTooLong
  | zeroInPath
deriving DecidableEq, Repr

namespace FileFault

def message (fault : FileFault) (path : DiskPath) : String :=
  let words :=
    match fault with
    | .notFound => "[Errno 2] No such file or directory"
    | .denied => "[Errno 13] Permission denied"
    | .exists => "[Errno 17] File exists"
    | .notDirectory => "[Errno 20] Not a directory"
    | .isDirectory => "[Errno 21] Is a directory"
    | .nameTooLong => "[Errno 36] File name too long"
    | .zeroInPath => "A path cannot hold a zero character"
  words ++ ": " ++ shownText path.text

def isAbsence : FileFault → Bool
  | .notFound | .notDirectory | .isDirectory | .zeroInPath => true
  | _ => false

end FileFault

/-- Reading and writing of files.  Writing makes the directories on the way. -/
structure Host (m : Type → Type) where
  readText : DiskPath → m (Except FileFault String)
  writeText : DiskPath → String → m (Except FileFault Unit)

end UnitySharp.CommandLine
