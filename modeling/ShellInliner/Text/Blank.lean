import ShellInliner.Text.Interval

/-! # Blank characters

    White space in the sense of the Unicode standard, the four information
    separators U+001C to U+001F included.  Words of a script end at such a
    character, and lines quoted in messages are trimmed of them. -/

namespace ShellInliner.Text

/-- The blank characters. -/
def blanks : List Interval :=
  [⟨0x9, 0xD⟩, ⟨0x1C, 0x20⟩, ⟨0x85, 0x85⟩, ⟨0xA0, 0xA0⟩, ⟨0x1680, 0x1680⟩, ⟨0x2000, 0x200A⟩,
   ⟨0x2028, 0x2029⟩, ⟨0x202F, 0x202F⟩, ⟨0x205F, 0x205F⟩, ⟨0x3000, 0x3000⟩]

/-- Is the character blank? -/
def isBlank (c : Char) : Bool :=
  Interval.covers blanks c.toNat

/-- Drop the blank characters at both ends. -/
def trim (cs : List Char) : List Char :=
  ((cs.dropWhile isBlank).reverse.dropWhile isBlank).reverse

end ShellInliner.Text
