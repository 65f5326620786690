import ExprMachine.Text.Layout

/-!
# Numbers with a fixed number of places

A floating-point number is a whole number times a power of two, so what it is worth is an exact
ratio. Writing it with a fixed number of decimal places rounds that ratio, not a shorter decimal
that stands for it, and a value halfway between two neighbours goes to the even one.
-/

namespace ExprMachine.Decimal

/-- The quotient `num / den` rounded to the nearest whole number, halves to the even one. -/
def roundHalfEven (num den : Nat) : Nat :=
  let floor := num / den
  let twice := 2 * (num % den)
  if twice < den then floor
  else if den < twice then floor + 1
  else floor + floor % 2

/-- A finite number that is not negative, as numerator and denominator. -/
def exactRatio (x : Float) : Nat × Nat :=
  let bits := x.toBits.toNat
  let exponent := (bits >>> 52) % 2048
  let fraction := bits % (1 <<< 52)
  let significand := (1 <<< 52) + fraction
  if exponent = 0 then (fraction, 1 <<< 1074)
  else if exponent < 1075 then (significand, 1 <<< (1075 - exponent))
  else (significand <<< (exponent - 1075), 1)

/-- A finite number that is not negative, with `places` decimal places. -/
def fixed (places : Nat) (x : Float) : String :=
  let (num, den) := exactRatio x
  let unit := Nat.pow 10 places
  let scaled := roundHalfEven (num * unit) den
  toString (scaled / unit) ++ "." ++ Text.zeroFill places (scaled % unit)

end ExprMachine.Decimal
