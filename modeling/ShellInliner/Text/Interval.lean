/-! # Intervals of code points

    A class of characters taken from a standard is given as a list of closed
    intervals of code points.  Membership is a plain search, so a statement
    about a class is a statement about its list. -/

namespace ShellInliner.Text

/-- A closed interval of code points. -/
structure Interval where
  first : Nat
  last : Nat
  deriving DecidableEq, Repr

def Interval.contains (i : Interval) (n : Nat) : Bool :=
  i.first ≤ n && n ≤ i.last

/-- The interval of a list that holds a code point, if there is one. -/
def Interval.find? (is : List Interval) (n : Nat) : Option Interval :=
  is.find? (·.contains n)

def Interval.covers (is : List Interval) (n : Nat) : Bool :=
  is.any (·.contains n)

end ShellInliner.Text
