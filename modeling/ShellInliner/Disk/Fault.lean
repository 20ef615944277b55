import ShellInliner.Text.Literal

/-! # Refusals of the disk

    Why a path cannot be opened, with the path as it was given. -/

namespace ShellInliner.Disk

/-- Why a path cannot be opened. -/
inductive Refusal
  | notFound
  | notDirectory
  | isDirectory
  /-- The path holds a null character, so no disk is asked. -/
  | nullCharacter
  deriving DecidableEq, Repr

/-- Is the refusal the answer of a disk, and not a fault of the path as a text? -/
def Refusal.isAnswer : Refusal → Bool
  | nullCharacter => false
  | _ => true

/-- The wording of a refusal, which starts with its number if a disk has answered. -/
def Refusal.message : Refusal → String
  | notFound => "[Errno 2] No such file or directory"
  | notDirectory => "[Errno 20] Not a directory"
  | isDirectory => "[Errno 21] Is a directory"
  | nullCharacter => "embedded null byte"

/-- A path that cannot be opened. -/
structure Fault where
  refusal : Refusal
  /-- The path as it was given. -/
  path : String
  deriving DecidableEq, Repr

def Fault.message (f : Fault) : String :=
  if f.refusal.isAnswer then s!"{f.refusal.message}: {Text.literal f.path}"
  else f.refusal.message

end ShellInliner.Disk
