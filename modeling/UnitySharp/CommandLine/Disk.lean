import UnitySharp.CommandLine.Host

/-!
# Files in memory

A disk holds files and directories, each by the names on the way to it from the current
directory.  Two dots in front lead above the current directory; what lies above it is there, but
none of its files are held.
-/

namespace UnitySharp.CommandLine

structure Disk where
  files : List (List String × String)
  directories : List (List String)
deriving Repr

namespace Disk

def longestName : Nat := 255

def longestPath : Nat := 4095

def file? (disk : Disk) (place : List String) : Option String :=
  List.lookup place disk.files

def isDirectory (disk : Disk) (place : List String) : Bool :=
  place.all (· == "..") || disk.directories.contains place

def isTaken (disk : Disk) (place : List String) : Bool :=
  (disk.file? place).isSome || disk.isDirectory place

def requireDirectory (disk : Disk) (place : List String) : Except FileFault Unit :=
  if disk.isDirectory place then .ok ()
  else if (disk.file? place).isSome then .error .notDirectory
  else .error .notFound

def enter (place : List String) (name : String) : Except FileFault (List String) :=
  if name = ".." then
    if place.all (· == "..") then .ok (place ++ [".."]) else .ok place.dropLast
  else if longestName < name.utf8ByteSize then .error .nameTooLong
  else .ok (place ++ [name])

def follow (disk : Disk) (place : List String) : List String → Except FileFault (List String)
  | [] => .ok place
  | name :: rest => do
    disk.requireDirectory place
    disk.follow (← enter place name) rest

/-- What can be said of a path without looking at the disk. -/
def checkPath (path : DiskPath) : Except FileFault Unit :=
  if path.text.toList.contains '\x00' then .error .zeroInPath
  else if longestPath < path.text.utf8ByteSize then .error .nameTooLong
  else .ok ()

/-- The place that a path leads to.  Nothing is held beneath the root but the current directory. -/
def locate (disk : Disk) (path : DiskPath) : Except FileFault (List String) := do
  checkPath path
  if path.root == "" then disk.follow [] path.parts
  else if path.parts.isEmpty then .error .isDirectory
  else .error .notFound

def read (disk : Disk) (path : DiskPath) : Except FileFault String := do
  let place ← disk.locate path
  match disk.file? place with
  | some text => .ok text
  | none => if disk.isDirectory place then .error .isDirectory else .error .notFound

def makeOne (disk : Disk) (path : DiskPath) : Except FileFault Disk := do
  checkPath path
  let above ← disk.locate path.parent
  if path.parts.isEmpty then .error .exists
  else
    disk.requireDirectory above
    let place ← enter above path.name
    if path.name = ".." || disk.isTaken place then .error .exists
    else .ok { disk with directories := disk.directories ++ [place] }

/-- A directory that cannot be made is no fault if it is there already. -/
def unlessThere (disk : Disk) (path : DiskPath) (fault : FileFault) : Except FileFault Disk :=
  match disk.locate path with
  | .ok place => if disk.isDirectory place then .ok disk else .error fault
  | .error _ => .error fault

/-- Makes a directory and, if need be, those on the way to it.  There are at most `names` names
left. -/
def makeWithin : Nat → Disk → DiskPath → Except FileFault Disk
  | names, disk, path =>
    match disk.makeOne path with
    | .ok made => .ok made
    | .error .notFound =>
      match names with
      | 0 => .error .notFound
      | names + 1 => do
        let disk ← makeWithin names disk path.parent
        match disk.makeOne path with
        | .ok made => .ok made
        | .error fault => disk.unlessThere path fault
    | .error fault => disk.unlessThere path fault

def makeDirectories (disk : Disk) (path : DiskPath) : Except FileFault Disk :=
  makeWithin path.parts.length disk path

def writeHere (disk : Disk) (path : DiskPath) (text : String) : Except FileFault Disk := do
  let place ← disk.locate path
  if disk.isDirectory place then .error .isDirectory
  else .ok { disk with files := disk.files.filter (fun entry => entry.1 != place) ++ [(place, text)]
    }

/-- Makes the directory of a file.  It stays even if the file cannot be written. -/
def write (disk : Disk) (path : DiskPath) (text : String) : Except FileFault Disk := do
  (← disk.makeDirectories path.parent).writeHere path text

def empty : Disk := ⟨[], []⟩

def ofFiles (files : List (String × String)) : Disk :=
  files.foldl (fun disk entry => (disk.write (DiskPath.ofText entry.1) entry.2).toOption.getD disk)
    empty

/-- The files below the current directory that are new or differ from those of an earlier disk. -/
def changedSince (disk before : Disk) : List (String × String) :=
  (disk.files.filter fun entry => entry.1.head? != some ".." && before.file? entry.1 != some
    entry.2).map fun entry => ("/".intercalate entry.1, entry.2)

def host : Host (StateM Disk) where
  readText path := do return (← get).read path
  writeText path text := do
    match (← get).write path text with
    | .ok disk =>
      set disk
      return .ok ()
    | .error fault => return .error fault

end Disk

end UnitySharp.CommandLine
