import ClassFold.Decimal.Binary64
import ClassFold.Text.Basic

/-!
# The shortest decimal of a binary number

A binary number is written with the fewest digits that still read back as it, and of the decimals with
so few digits with the nearest one. All is computed in natural numbers.
-/

set_option autoImplicit false

namespace ClassFold

namespace Decimal

structure Ratio where
  num : Nat
  den : Nat

namespace Ratio

def le (a b : Ratio) : Bool := a.num * b.den ≤ b.num * a.den

def lt (a b : Ratio) : Bool := a.num * b.den < b.num * a.den

/-- `m * base ^ e`. -/
def scaled (m base : Nat) (e : Int) : Ratio :=
  ⟨m * Nat.pow base e.toNat, Nat.pow base (-e).toNat⟩

end Ratio

/-- The decimals that read back as a positive number lie between two bounds, which themselves do so if
the significand is even. -/
structure Bounds where
  low : Ratio
  high : Ratio
  closed : Bool

/-- The bounds lie half way to the two neighbours. Below a power of two the neighbour is half as far. -/
def boundsOf (m : Nat) (q : Int) : Bounds :=
  let below := if m == 1 <<< 52 && q > -1074 then 4 * m - 1 else 4 * m - 2
  ⟨.scaled below 2 (q - 2), .scaled (4 * m + 2) 2 (q - 2), m % 2 == 0⟩

def Bounds.contain (b : Bounds) (x : Ratio) : Bool :=
  if b.closed then b.low.le x && x.le b.high else b.low.lt x && x.lt b.high

/-- The number `k` with `10 ^ (k - 1) ≤ x < 10 ^ k`, searched downwards. -/
def magnitudeFrom (x : Ratio) : Nat → Int → Int
  | 0, k => k
  | fuel + 1, k => if (Ratio.scaled 1 10 (k - 1)).le x then k else magnitudeFrom x fuel (k - 1)

/-- No finite number has more than 309 digits before the point or more than 324 zeros behind it. -/
def magnitude (x : Ratio) : Int := magnitudeFrom x 640 310

/-- The decimal `c * 10 ^ e` on the grid of the powers `10 ^ e` that reads back and is nearest; a tie
goes upwards. -/
def onGrid? (b : Bounds) (x : Ratio) (e : Int) : Option Nat :=
  let unit := Ratio.scaled 1 10 e
  let c := x.num * unit.den / (x.den * unit.num)
  let down := b.contain (.scaled c 10 e)
  let up := b.contain (.scaled (c + 1) 10 e)
  let rest := x.num * unit.den % (x.den * unit.num)
  if up && (!down || x.den * unit.num ≤ 2 * rest) then some (c + 1)
  else if down then some c
  else none

def searchFrom (b : Bounds) (x : Ratio) (k : Int) : Nat → Nat → Nat × Int
  | 0, _ => (0, 0)
  | fuel + 1, n =>
    match onGrid? b x (k - n) with
    | some c => if c == Nat.pow 10 n then (1, k) else (c, k - n)
    | none => searchFrom b x k fuel (n + 1)

/-- The shortest decimal `c * 10 ^ e` of the positive number `m * 2 ^ q`. Seventeen digits are enough. -/
def shortest (m : Nat) (q : Int) : Nat × Int :=
  let x := Ratio.scaled m 2 q
  searchFrom (boundsOf m q) x (magnitude x) 17 1

def positional (c : Nat) (e : Int) : Text :=
  let digits := Nat.toDigits 10 c
  if e ≥ 0 then digits ++ List.replicate e.toNat '0' ++ ".0".toList
  else
    let places := (-e).toNat
    if places < digits.length then
      digits.take (digits.length - places) ++ '.' :: digits.drop (digits.length - places)
    else "0.".toList ++ List.replicate (places - digits.length) '0' ++ digits

end Decimal

/-- Always with a point or a name, never with an exponent. -/
def Binary64.text : Binary64 → Text
  | nan => "NaN".toList
  | infinite negative => (if negative then "-inf" else "inf").toList
  | finite negative m q =>
    let decimal := if m == 0 then "0.0".toList else
      let (c, e) := Decimal.shortest m q
      Decimal.positional c e
    if negative then '-' :: decimal else decimal

end ClassFold
