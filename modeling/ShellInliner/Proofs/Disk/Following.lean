import ShellInliner.Disk.Basic

/-! # Paths that are refused

    On the way along a path the disk can only answer that something is not there or
    is of the wrong kind.  A path with a null character is refused without asking
    the disk, so it leads nowhere, whatever stands on the disk. -/

namespace ShellInliner.Disk

variable {d : Disk} {l : Location} {p : List Char} {r : Refusal} {f : Fault}

/-! ### Following -/

end ShellInliner.Disk
