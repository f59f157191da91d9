import Verilower.Decimal.Shortest

namespace Verilower

namespace Decimal

def digitList (d : Decimal) : List Char := Nat.toDigits 10 d.digits

/-- The place of the decimal point, counted from the first digit. -/
def point (d : Decimal) : Int := d.digitList.length + d.exponent

/-- All digits in place; a whole number has no point. -/
def positional (d : Decimal) : List Char :=
  let digits := d.digitList
  if 0 ≤ d.exponent then digits ++ List.replicate d.exponent.toNat '0'
  else if d.point ≤ 0 then '0' :: '.' :: (List.replicate (-d.point).toNat '0' ++ digits)
  else digits.take d.point.toNat ++ '.' :: digits.drop d.point.toNat

/-- One digit, the other digits after a point, and the power of ten. -/
def scientific (d : Decimal) : List Char :=
  let power := 'e' :: (toString (d.point - 1)).toList
  match d.digitList with
  | [] => '0' :: power
  | [digit] => digit :: power
  | digit :: rest => digit :: '.' :: rest ++ power

end Decimal

namespace Double

def signed (x : Double) (text : List Char) : String :=
  String.ofList (if x.isNegative then '-' :: text else text)

def withPoint (text : List Char) : List Char :=
  if text.contains '.' then text else text ++ ['.', '0']

/-- The positional text; whole numbers have no point. -/
def plain (x : Double) : String :=
  match x.magnitude with
  | .nan => "NaN"
  | .infinite => x.signed ['i', 'n', 'f']
  | .zero => x.signed ['0']
  | .finite m q lowest => x.signed (Decimal.shortest m q lowest).positional

/-- The positional text with a point in every number. -/
def literal (x : Double) : String :=
  match x.magnitude with
  | .nan => "NaN"
  | .infinite => x.signed ['i', 'n', 'f']
  | .zero => x.signed ['0', '.', '0']
  | .finite m q lowest => x.signed (withPoint (Decimal.shortest m q lowest).positional)

/-- The text with a point or a power of ten: positional from `1e-4` up to `1e16`. -/
def shown (x : Double) : String :=
  match x.magnitude with
  | .finite m q lowest =>
    let d := Decimal.shortest m q lowest
    if -4 < d.point && d.point < 17 then x.literal else x.signed d.scientific
  | _ => x.literal

end Double

end Verilower
