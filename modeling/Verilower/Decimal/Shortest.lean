namespace Verilower

structure Double where
  bits : UInt64
deriving DecidableEq, Inhabited

namespace Double

def isNegative (x : Double) : Bool := 0x8000000000000000 ≤ x.bits.toNat

/-- What the bits below the sign stand for. -/
inductive Magnitude where
  | nan
  | infinite
  | zero
  /-- The number `mantissa * 2 ^ exponent`; `lowest` marks the least mantissa of its binade. -/
  | finite (mantissa : Nat) (exponent : Int) (lowest : Bool)
deriving DecidableEq, Inhabited

def magnitude (x : Double) : Magnitude :=
  let fraction : Nat := x.bits.toNat % 0x10000000000000
  let biased : Nat := x.bits.toNat / 0x10000000000000 % 2048
  if biased = 2047 then if fraction = 0 then .infinite else .nan
  else if biased = 0 then if fraction = 0 then .zero else .finite fraction (-1074) false
  else .finite (0x10000000000000 + fraction) (biased - 1075) (fraction == 0 && biased != 1)

def isFinite (x : Double) : Bool :=
  match x.magnitude with
  | .nan | .infinite => false
  | .zero | .finite .. => true

end Double

/-- The number `digits * 10 ^ exponent`. -/
structure Decimal where
  digits : Nat
  exponent : Int
deriving DecidableEq, Inhabited

namespace Decimal

/-- The rounding interval of a double: all parts are numerators over the denominator `unit`. -/
structure Interval where
  value : Nat
  low : Nat
  high : Nat
  unit : Nat
  closed : Bool

def Interval.of (mantissa : Nat) (exponent : Int) (lowest : Bool) : Interval :=
  let quarter := exponent - 2
  let scale := Nat.pow 2 quarter.toNat
  { value := 4 * mantissa * scale
    low := (4 * mantissa - if lowest then 1 else 2) * scale
    high := (4 * mantissa + 2) * scale
    unit := Nat.pow 2 (-quarter).toNat
    closed := mantissa % 2 == 0 }

/-- Whether `digits * 10 ^ exponent` rounds to the double. -/
def Interval.contains (i : Interval) (d : Decimal) : Bool :=
  let point := d.digits * Nat.pow 10 d.exponent.toNat * i.unit
  let down := Nat.pow 10 (-d.exponent).toNat
  if i.closed then i.low * down ≤ point && point ≤ i.high * down
  else i.low * down < point && point < i.high * down

/-- The neighbour of the value on the grid of step `10 ^ exponent` that rounds to the double; of
two the nearer, and the greater when both are equally near. -/
def Interval.onGrid? (i : Interval) (exponent : Int) : Option Decimal :=
  let up := Nat.pow 10 exponent.toNat * i.unit
  let scaled := i.value * Nat.pow 10 (-exponent).toNat
  let below : Decimal := ⟨scaled / up, exponent⟩
  let above : Decimal := ⟨scaled / up + 1, exponent⟩
  match i.contains below, i.contains above with
  | true, false => some below
  | false, true => some above
  | true, true => some (if 2 * (scaled % up) < up then below else above)
  | false, false => none

/-- The shortest decimal in the interval of `mantissa * 2 ^ exponent`. The first grid is coarser
than the value; twenty steps pass the seventeen digits that tell all doubles apart. -/
def shortest (mantissa : Nat) (exponent : Int) (lowest : Bool) : Decimal :=
  let top := ((mantissa.log2 : Int) + exponent) * 1233 / 4096 + 2
  let interval := Interval.of mantissa exponent lowest
  ((List.range 21).findSome? fun step : Nat => interval.onGrid? (top - step)).getD ⟨0, 0⟩

end Decimal

end Verilower
