/-! # JSON values

    Objects keep their members in the order they were written.  Whole numbers
    and numbers written with a fraction or an exponent are kept apart, because
    settings and trees accept them differently. -/

namespace ShellInliner.Json

/-- A number written with a fraction or an exponent: `mantissa · 10 ^ exponent`. -/
structure Decimal where
  /-- All digits, as if there were no point. -/
  mantissa : Int
  /-- The power of ten that the mantissa is multiplied by. -/
  exponent : Int
  deriving DecidableEq, Repr

/-- The number of decimal digits of a natural number. -/
def digitCount (n : Nat) : Nat :=
  (Nat.toDigits 10 n).length

/-- The whole number a decimal is equal to, if it is one.  Beyond the range of
    double precision there is none. -/
def Decimal.toInt? (d : Decimal) : Option Int :=
  if d.mantissa = 0 then some 0
  else if 309 < d.exponent then none
  else if 0 ≤ d.exponent then some (d.mantissa * Int.pow 10 d.exponent.toNat)
  -- Fewer digits than places: the number lies between minus one and one.
  else if digitCount d.mantissa.natAbs < d.exponent.natAbs then none
  else
    let unit := Int.pow 10 d.exponent.natAbs
    if d.mantissa % unit = 0 then some (d.mantissa / unit) else none

/-- A JSON value. -/
inductive Value
  | null
  | bool (b : Bool)
  | int (n : Int)
  /-- A number with a fraction or an exponent. -/
  | real (d : Decimal)
  /-- One of the values that are no numbers but may stand for one: not a
      number, or an infinity. -/
  | notFinite
  | string (s : String)
  | array (vs : List Value)
  | object (members : List (String × Value))
  deriving Inhabited

/-- The member of a given name. -/
def member? (members : List (String × Value)) (name : String) : Option Value :=
  members.lookup name

/-- Add a member; one that has the same name already is replaced in its place. -/
def setMember (members : List (String × Value)) (name : String) (v : Value) :
    List (String × Value) :=
  if members.any (·.1 == name) then
    members.map fun m => if m.1 == name then (name, v) else m
  else members ++ [(name, v)]

/-- The member of a given name, if the value is an object that has it. -/
def Value.get? (v : Value) (name : String) : Option Value :=
  match v with
  | object members => member? members name
  | _ => none

/-- Every optional member that is there, without the others. -/
def present (members : List (String × Option Value)) : List (String × Value) :=
  members.filterMap fun m => m.2.map (m.1, ·)

/-- A text, or `null` for none. -/
def ofText? : Option String → Value
  | none => .null
  | some s => .string s

/-- A number, or `null` for none. -/
def ofInt? : Option Int → Value
  | none => .null
  | some n => .int n

end ShellInliner.Json
