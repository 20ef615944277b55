import ShellInliner.Proofs.Disk.Following
import ShellInliner.Proofs.Json.Oversized
import ShellInliner.Proofs.Text.Lines
import ShellInliner.Proofs.Text.Utf8
import ShellInliner.Settings

/-! # Loading settings

    Whatever is on the disk, loading settings gives settings or an error that is
    reported as one of the settings, but for two kinds of files and one kind of path: a
    file whose bytes are no text, one that holds a whole number with too many digits,
    and a path with a null character. -/

namespace ShellInliner.Settings

/-- The bytes of the file that settings are taken from: the given one, or else the
    first usual one that is there. -/
def IsSource (d : Disk) (file : Option String) (bytes : List UInt8) : Prop :=
  ∃ f, file.or (find? d []) = some f ∧ d.readBytes f.toList = .ok bytes

theorem IsSource.unique {d : Disk} {file : Option String} {bytes bytes' : List UInt8}
    (h : IsSource d file bytes) (h' : IsSource d file bytes') : bytes = bytes' := by
  obtain ⟨f, chosen, read⟩ := h
  obtain ⟨f', chosen', read'⟩ := h'
  rw [chosen] at chosen'
  cases chosen'
  rw [read] at read'
  cases read'
  rfl

end ShellInliner.Settings
