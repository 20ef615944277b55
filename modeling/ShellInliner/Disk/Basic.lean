import ShellInliner.Error
import ShellInliner.Path
import ShellInliner.Text.Lines

/-! # Disks

    A disk holds files and directories by their places.  A path is followed
    component by component, so every directory on the way has to be there, even
    one that the path leaves again.

    Everything on a disk can be read and written: there are no rights, no links, no
    files but plain ones, and no bounds on the length of a name or the size of a
    file. -/

namespace ShellInliner

namespace Disk

/-- What stands at a place. -/
inductive Item
  | file (bytes : List UInt8)
  | directory
  deriving DecidableEq, Repr

/-- A place: the components on the way from the root. -/
abbrev Location := List (List Char)

end Disk

open Disk (Item Location Refusal Fault)

/-- A disk, seen from a working directory. -/
structure Disk where
  /-- The working directory, as an absolute path. -/
  cwd : List Char
  /-- The home directory, as an absolute path. -/
  home : List Char
  /-- Everything on the disk but the root. -/
  items : List (Location × Item)

namespace Disk

def item? (d : Disk) (l : Location) : Option Item :=
  if l.isEmpty then some .directory else d.items.lookup l

def put (d : Disk) (l : Location) (i : Item) : Disk :=
  if d.items.any (·.1 == l) then
    { d with items := d.items.map fun e => if e.1 == l then (l, i) else e }
  else { d with items := d.items ++ [(l, i)] }

/-! ### Following paths -/

/-- The place that components lead to, from a place on.  Nothing need stand at
    the last place itself. -/
def walk (d : Disk) : Location → List (List Char) → Except Refusal Location
  | l, [] => .ok l
  | l, c :: cs =>
    match d.item? l with
    | none => .error .notFound
    | some (.file _) => .error .notDirectory
    | some .directory =>
      -- Two slashes in a row, or one at the end, name the directory itself.
      if c = [] ∨ c = ['.'] then walk d l cs
      else if c = ['.', '.'] then walk d l.dropLast cs
      else walk d (l ++ [c]) cs

/-- The place of a normal absolute path. -/
def locationOf (p : List Char) : Location :=
  (Path.components p).filter (!·.isEmpty)

/-- The place that a path leads to. -/
def follow (d : Disk) (p : List Char) : Except Refusal Location :=
  -- A null character would end the path, so such a path is refused before it is followed.
  if p.contains '\x00' then .error .nullCharacter
  else if p.isEmpty then .error .notFound
  else
    let start := if Path.isAbsolute p then [] else locationOf d.cwd
    d.walk start (Path.components p)

def find (d : Disk) (p : List Char) : Except Refusal Item :=
  match d.follow p with
  | .error r => .error r
  | .ok l =>
    match d.item? l with
    | some i => .ok i
    | none => .error .notFound

def pathExists (d : Disk) (p : List Char) : Bool :=
  (d.find p).toOption.isSome

def isFile (d : Disk) (p : List Char) : Bool :=
  match d.find p with
  | .ok (.file _) => true
  | _ => false

/-! ### Reading and writing -/

/-- The bytes of the file that a path leads to. -/
def readBytes (d : Disk) (p : List Char) : Except Fault (List UInt8) :=
  match d.find p with
  | .error r => .error ⟨r, String.ofList p⟩
  | .ok .directory => .error ⟨.isDirectory, String.ofList p⟩
  | .ok (.file bytes) => .ok bytes

/-- The text that bytes spell, with line ends of one form. -/
def textOf (bytes : List UInt8) : Except Error (List Char) :=
  match Text.decode bytes with
  | .ok cs => .ok (Text.unifyLineEnds cs)
  | .error f => .error (.undecodable f)

/-- The text of the file that a path leads to. -/
def readText (d : Disk) (p : List Char) : Except Error (List Char) :=
  match d.readBytes p with
  | .error f => .error (.access f)
  | .ok bytes => textOf bytes

/-- Is there a slash at the end of the path where the path without it leads to
    nothing? -/
def endsInNothing (d : Disk) (p : List Char) : Bool :=
  p.getLast? == some '/' &&
    match d.follow ((p.reverse.dropWhile (· == '/')).reverse) with
    | .ok l => (d.item? l).isNone
    | .error _ => false

/-- Write a text to the file that a path leads to; the file need not be there
    before. -/
def writeText (d : Disk) (p : List Char) (text : String) : Except Error Disk :=
  let fault := fun r => Error.access ⟨r, String.ofList p⟩
  match d.follow p with
  -- What is to be made must not be named as a directory.
  | .error r => .error (fault (if d.endsInNothing p then .isDirectory else r))
  | .ok l =>
    match d.item? l with
    | some .directory => .error (fault .isDirectory)
    | _ => .ok (d.put l (.file (Text.encode text)))

/-! ### Setting up -/

/-- Put a directory at a place, with all directories above it. -/
def makeDirectory (d : Disk) (l : Location) : Disk :=
  (List.range l.length).foldl
    (fun d n =>
      let above := l.take (n + 1)
      if (d.item? above).isSome then d else d.put above .directory) d

/-- Put a file at a place, with all directories above it. -/
def makeFile (d : Disk) (l : Location) (bytes : List UInt8) : Disk :=
  (d.makeDirectory l.dropLast).put l (.file bytes)

/-- A disk with nothing but the working directory and the home directory. -/
def blank (cwd home : List Char) : Disk :=
  ((Disk.mk cwd home []).makeDirectory (locationOf cwd)).makeDirectory (locationOf home)

/-- The place that a path names, whatever stands on the way. -/
def namedLocation (d : Disk) (p : List Char) : Location :=
  locationOf (Path.absolute d.cwd p)

/-- The files at or below a place, each with its path from there. -/
def filesBelow (d : Disk) (l : Location) : List (String × List UInt8) :=
  d.items.filterMap fun e =>
    match e.2 with
    | .file bytes =>
      if l.isPrefixOf e.1 then
        some (String.ofList (Path.joinComponents (e.1.drop l.length)), bytes)
      else none
    | .directory => none

/-- The files at or below a place that are not on an earlier disk, or differ
    there. -/
def changedSince (d earlier : Disk) (l : Location) : List (String × List UInt8) :=
  let before := earlier.filesBelow l
  (d.filesBelow l).filter fun f => !before.contains f

end Disk

end ShellInliner
