namespace ViewMaintenance.Text

/-- The number `digits * 10 ^ exponent`, or its negative. -/
structure Decimal where
  negative : Bool
  digits : Nat
  exponent : Int

namespace Decimal

/-- Moves the zeros at the end of the digits into the exponent. -/
def strip (digits : Nat) (exponent : Int) : Nat × Int :=
  if 0 < digits ∧ digits % 10 = 0 then strip (digits / 10) (exponent + 1) else (digits, exponent)
termination_by digits
decreasing_by omega

/-- A number of zeros, none if it is negative. -/
def zeros (n : Int) : List Char := List.replicate n.toNat '0'

/-- The text of a positive number. It has no exponent if at most sixteen places come before the
    point, or at most four zeros between the point and the digits. -/
def magnitude (digits : Nat) (exponent : Int) : List Char :=
  let (digits, exponent) := strip digits exponent
  let chars := Nat.toDigits 10 digits
  let places := chars.length + exponent
  if 0 ≤ exponent ∧ places ≤ 16 then chars ++ zeros exponent ++ ['.', '0']
  else if 0 < places ∧ places ≤ 16 then chars.take places.toNat ++ '.' :: chars.drop places.toNat
  else if -5 < places ∧ places ≤ 0 then '0' :: '.' :: zeros (-places) ++ chars
  else
    let rest := chars.drop 1
    let fraction := if rest = [] then [] else '.' :: rest
    chars.take 1 ++ fraction ++ 'e' :: (toString (places - 1)).toList

/-- The text of a number. It always shows a point or an exponent. -/
def toText (d : Decimal) : String :=
  let sign := if d.negative then ['-'] else []
  let unsigned := if d.digits = 0 then ['0', '.', '0'] else magnitude d.digits d.exponent
  .ofList (sign ++ unsigned)

end Decimal

end ViewMaintenance.Text
