import ShellInliner.CommandLine.Lookup

/-! # The program

    Bring together the part of the disk that the run looks at, run, print what
    the run leaves and write the files that it changed. -/

namespace ShellInliner.CommandLine

/-- All bytes of a stream. -/
partial def readStream (stream : IO.FS.Stream) (before : ByteArray) : IO ByteArray := do
  let next ← stream.read 65536
  if next.isEmpty then return before
  readStream stream (before ++ next)

/-- Copy what stands at a path.  What cannot be read counts as not there. -/
def copyItem (d : Disk) (p : List Char) : IO Disk := do
  let path := System.mkFilePath [String.ofList p]
  let place := d.namedLocation p
  if ← path.isDir then return d.makeDirectory place
  try
    let bytes ← IO.FS.readBinFile path
    return d.makeFile place bytes.toList
  catch _ => return d

/-- Copy what stands at paths and on the way to them. -/
def copyItems (d : Disk) (paths : List (List Char)) : IO Disk :=
  (paths.flatMap stages).foldlM copyItem d

/-- Write the files that differ from an earlier disk. -/
def writeChanges (earlier d : Disk) : IO Unit := do
  for (name, bytes) in d.changedSince earlier [] do
    IO.FS.writeBinFile (System.mkFilePath ["/" ++ name]) ⟨bytes.toArray⟩

/-- Say why a run was broken off. -/
def breakOff (e : Error) : IO UInt32 := do
  IO.eprintln ((e.message?).getD "The run was broken off.")
  return 1

/-- Print what a run leaves and write the files that it changed. -/
def finish (before : Disk) (e : Ending) : IO UInt32 := do
  writeChanges before e.disk
  IO.print e.output
  IO.eprint e.errorOutput
  match e.status with
  | .ok n => return n.toUInt32
  | .error cause => breakOff cause

/-- An empty disk, seen from the working directory. -/
def emptyDisk : IO Disk := do
  let cwd ← IO.currentDir
  let home ← IO.getEnv "HOME"
  return Disk.blank cwd.toString.toList (home.getD "/").toList

/-- Run an invocation on the disk of the machine. -/
def runHere (i : Invocation) : IO UInt32 := do
  let bytes ← if i.request.readsInput then readStream (← IO.getStdin) .empty else pure .empty
  match Disk.textOf bytes.toList with
  | .error e => breakOff e
  | .ok input =>
    let d ← emptyDisk
    -- The imports are known only once the script and the settings are there.
    let own ← copyItems d (i.lookups d.home)
    let all ← copyItems own (i.importLookups own input)
    finish all (i.run all input)

end ShellInliner.CommandLine

open ShellInliner.CommandLine in
/-- The program. -/
def main (args : List String) : IO UInt32 := do
  match Invocation.read args with
  | .ok i => runHere i
  | .error stop =>
    let d ← emptyDisk
    finish d (stop.ending d)
