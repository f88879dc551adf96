/-!
Decimals and how they are written. The digits stand around a point as long as the first of them has
a place from 10^-5 to 10^15; beyond that, an exponent follows them.
-/
namespace AcademicMarkup

/-- The number `digits * 10^scale`. -/
structure Decimal where
  digits : Nat
  scale : Int
deriving DecidableEq, Repr

namespace Decimal

/-- Digits with the point behind the given number of them. A digit stands on either side of it. -/
def positional (digits : List Char) (point : Int) : List Char :=
  let padded := List.replicate (1 - point).toNat '0' ++ digits
  let before := max point.toNat 1
  let filled := padded ++ List.replicate (before + 1 - padded.length) '0'
  filled.take before ++ '.' :: filled.drop before

/-- Digits with the point behind the first one, if more follow, and the exponent of that one. -/
def scientific (digits : List Char) (exponent : Int) : List Char :=
  let part := match digits.drop 1 with
    | [] => []
    | cs => '.' :: cs
  let sign := if exponent < 0 then '-' else '+'
  digits.take 1 ++ part ++ 'e' :: sign :: Nat.toDigits 10 exponent.natAbs

def text (d : Decimal) : String :=
  let written := Nat.toDigits 10 d.digits
  let point : Int := written.length + d.scale
  let digits := (written.reverse.dropWhile (· == '0')).reverse
  String.ofList <|
    if -5 < point ∧ point ≤ 16 then positional digits point else scientific digits (point - 1)

end Decimal

end AcademicMarkup
