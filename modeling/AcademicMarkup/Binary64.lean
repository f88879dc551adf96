import AcademicMarkup.Decimal

/-!
Finite floating-point numbers of 64 bits, and the decimals that stand for them. All of them are
multiples of 2^-1074, and the ends of the interval that rounds to one are multiples of a quarter of
that, so they are compared with decimals as natural numbers.
-/
namespace AcademicMarkup

/-- The number `significand * 2^(power - 1074)`, with a sign that zero has too. -/
structure Binary64 where
  negative : Bool
  significand : Nat
  power : Nat
deriving DecidableEq, Repr

namespace Binary64

/-- The finite number that 64 bits stand for: a sign, eleven bits for the power and a fraction. -/
def ofBits (bits : Nat) : Binary64 :=
  let negative := bits / Nat.pow 2 63 % 2 == 1
  let exponent := bits / Nat.pow 2 52 % 2048
  let fraction := bits % Nat.pow 2 52
  if exponent = 0 then ⟨negative, fraction, 0⟩
  else ⟨negative, Nat.pow 2 52 + fraction, exponent - 1⟩

/-- The magnitude as a multiple of 2^-1076. -/
def quarters (x : Binary64) : Nat := 4 * x.significand * Nat.pow 2 x.power

/-- The middle between the magnitude and the next one below, as a multiple of 2^-1076. Below the
least significand of its power the next one is half as far. -/
def lowerEnd (x : Binary64) : Nat :=
  if x.significand = Nat.pow 2 52 ∧ 0 < x.power then
    (4 * x.significand - 1) * Nat.pow 2 x.power
  else (4 * x.significand - 2) * Nat.pow 2 x.power

/-- The middle between the magnitude and the next one above, as a multiple of 2^-1076. -/
def upperEnd (x : Binary64) : Nat := (4 * x.significand + 2) * Nat.pow 2 x.power

/-- Orders a decimal against a multiple of 2^-1076. -/
def order (d : Decimal) (quarters : Nat) : Ordering :=
  compare (d.digits * Nat.pow 10 d.scale.toNat * Nat.pow 2 1076)
    (quarters * Nat.pow 10 (-d.scale).toNat)

/-- Whether the magnitude is what a decimal rounds to. The middle between two numbers goes to the
one with the even significand. -/
def readsBack (x : Binary64) (d : Decimal) : Bool :=
  match order d x.lowerEnd, order d x.upperEnd with
  | .gt, .lt => true
  | .eq, _ => x.significand % 2 == 0
  | _, .eq => x.significand % 2 == 0
  | _, _ => false

/-- The greatest decimal of a scale that is not above the magnitude. -/
def floorAt (x : Binary64) (scale : Int) : Decimal :=
  ⟨x.quarters * Nat.pow 10 (-scale).toNat / (Nat.pow 2 1076 * Nat.pow 10 scale.toNat), scale⟩

/-- The decimal of a scale that stands for the magnitude: of the two around it the nearer that
reads back, and the even one if both are as near. -/
def atScale? (x : Binary64) (scale : Int) : Option Decimal :=
  let below := x.floorAt scale
  let above : Decimal := ⟨below.digits + 1, scale⟩
  let preferBelow := match order ⟨2 * below.digits + 1, scale⟩ (2 * x.quarters) with
    | .gt => true
    | .eq => below.digits % 2 == 0
    | .lt => false
  let candidates := if preferBelow then [below, above] else [above, below]
  candidates.find? x.readsBack

/-- The least power of ten above the magnitude, for one that is not zero. -/
def magnitude (x : Binary64) : Int :=
  let estimate : Int :=
    (Nat.toDigits 10 x.quarters).length - (Nat.toDigits 10 (Nat.pow 2 1076)).length
  if order ⟨1, estimate⟩ x.quarters = .gt then estimate else estimate + 1

/-- The magnitude itself, since 2^-1076 is 5^1076 * 10^-1076. -/
def exact (x : Binary64) : Decimal := ⟨x.quarters * Nat.pow 5 1076, -1076⟩

/-- The decimal with the fewest digits that reads back, and of those the nearest. Seventeen digits
are enough. -/
def shortest (x : Binary64) : Decimal :=
  if x.significand = 0 then ⟨0, 0⟩
  else
    let top := x.magnitude
    let counts := (List.range 17).map (· + 1)
    (counts.findSome? fun (count : Nat) => x.atScale? (top - count)).getD x.exact

def text (x : Binary64) : String :=
  (if x.negative then "-" else "") ++ x.shortest.text

end Binary64

end AcademicMarkup
