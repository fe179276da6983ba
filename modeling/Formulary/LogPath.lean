/-!
# Paths of log files

A journal is given a path, or makes one from the time, and keeps its file there. Where
the path leads is settled before anything is opened: a stroke too many and a single
point change nothing, and two points take back the name before them, whatever is there.
The disk then decides whether the file can be opened. The directories on the way have
to be there, and at its own place there may be a file, but no directory and nothing
that keeps from writing.

Whoever looks for the file follows the path as it is given, from directory to
directory, and finds it only if there is one at every step.
-/

namespace Formulary

/-- The names on the way from the top directory to something on a disk, its own name last. -/
abbrev Place := List String

/-- Where a journal is to keep its file. -/
inductive LogPath where
  | given (path : String)
  /-- a name made from the date and the time -/
  | generated (time : String)
deriving DecidableEq, Repr

/-- A file of a journal. -/
structure LogFile where
  directory : Place
  name : String
deriving DecidableEq, Repr

def LogFile.place (file : LogFile) : Place := file.directory ++ [file.name]

/-- Why a file cannot be opened. -/
inductive PathFault where
  | missingDirectory
  /-- a file stands where a directory is needed -/
  | fileInTheWay
  | isDirectory
  | locked
deriving DecidableEq, Repr

namespace LogPath

/-- The path that is used: the one that is given, or else one made at the time. -/
def choose (path? : Option String) (time : String) : LogPath :=
  match path? with
  | some path => .given path
  | none => .generated time

def text : LogPath → String
  | .given path => path
  | .generated time => "object_expressions_" ++ time ++ ".log"

/-- Whether a part of a path names something, rather than staying in place or going up. -/
def isName (part : String) : Bool := part != "" && part != "." && part != ".."

/-- A text cut at its strokes. -/
def cut : List Char → List (List Char)
  | [] => [[]]
  | c :: cs =>
    if c = '/' then [] :: cut cs
    else match cut cs with
      | [] => [[c]]
      | part :: parts => (c :: part) :: parts

/-- The parts of a path between its strokes. -/
def parts (path : LogPath) : List String := (cut path.text.toList).map String.ofList

/-- Whether a path starts at the top, and not at the working directory. -/
def isFromTop (path : LogPath) : Bool := path.text.toList.head? == some '/'

/-- Where a part of a path leads from a directory. Above the top there is only the top. -/
def follow (place : Place) (part : String) : Place :=
  if isName part then place ++ [part]
  else if part = ".." then place.dropLast
  else place

end LogPath

/-- What can stand at a place. -/
inductive DiskEntry where
  | directory
  | file
deriving DecidableEq, Repr

/-- What a journal finds outside when it opens its files. Directories do not link to one another. -/
structure Disk where
  /-- the working directory; it is there, and so are those above it -/
  working : Place := []
  /-- what else is there from the start -/
  entry? : Place → Option DiskEntry := fun _ => none
  /-- whether nothing can be written at a place, for whatever reason -/
  isLocked : Place → Bool := fun _ => false

namespace Disk

def isDirectory (d : Disk) (place : Place) : Bool :=
  place.isPrefixOf d.working || d.entry? place == some .directory

/-- Where a path starts. -/
def start (d : Disk) (path : LogPath) : Place := if path.isFromTop then [] else d.working

/-- Where a path leads. -/
def place (d : Disk) (path : LogPath) : Place := path.parts.foldl LogPath.follow (d.start path)

/-- What stops one who goes down from directory to directory, given the files that were opened. -/
def obstacle? (d : Disk) (opened : LogFile → Bool) (reached : Place) : List String → Option PathFault
  | [] => none
  | name :: names =>
    if d.isDirectory (reached ++ [name]) then d.obstacle? opened (reached ++ [name]) names
    else if d.entry? (reached ++ [name]) == some .file || opened ⟨reached, name⟩ then
      some .fileInTheWay
    else some .missingDirectory

/-- Why a file cannot be opened, given the files that were opened before. -/
def fault? (d : Disk) (opened : LogFile → Bool) (file : LogFile) : Option PathFault :=
  match d.obstacle? opened [] file.directory with
  | some fault => some fault
  | none =>
    if d.isDirectory file.place then some .isDirectory
    else if d.isLocked file.place then some .locked
    else none

/-- The file that is opened for a path, given the files that were opened before. -/
def target (d : Disk) (opened : LogFile → Bool) (path : LogPath) : Except PathFault LogFile :=
  match (d.place path).getLast? with
  | none => .error .isDirectory
  | some name =>
    let file : LogFile := ⟨(d.place path).dropLast, name⟩
    match d.fault? opened file with
    | some fault => .error fault
    | none => .ok file

/-- One step along a path, if there is a directory where it leads. -/
def enter? (d : Disk) (place : Place) (part : String) : Option Place :=
  let next := LogPath.follow place part
  if d.isDirectory next then some next else none

/-- The file that is found at a path by following it step by step. -/
def find? (d : Disk) (path : LogPath) : Option LogFile :=
  match path.parts.getLast? with
  | none => none
  | some name =>
    if LogPath.isName name then
      (path.parts.dropLast.foldlM d.enter? (d.start path)).map fun directory => ⟨directory, name⟩
    else none

end Disk
end Formulary
