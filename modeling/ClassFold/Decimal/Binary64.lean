/-!
# Binary floating point with 64 bits

A finite number is a significand below `2 ^ 53` times a power of two whose exponent is at least
`-1074`. A decimal goes to the nearest such number, and of two nearest ones to the one with the even
significand.
-/

set_option autoImplicit false

namespace ClassFold

inductive Binary64 where
  | nan
  | infinite (negative : Bool)
  | finite (negative : Bool) (significand : Nat) (exponent : Int)
deriving DecidableEq, Repr

namespace Binary64

def roundDiv (num den : Nat) : Nat :=
  let q := num / den
  let r := num % den
  if 2 * r > den || (2 * r == den && q % 2 == 1) then q + 1 else q

def floorLog2 (num den : Nat) : Int :=
  let e : Int := (num.log2 : Int) - den.log2
  if den <<< e.toNat ≤ num <<< (-e).toNat then e else e - 1

/-- The number nearest to a positive quotient; `none` when it is too large for a finite one. -/
def nearest? (num den : Nat) : Option (Nat × Int) :=
  let q := max (floorLog2 num den - 52) (-1074)
  let m := roundDiv (num <<< (-q).toNat) (den <<< q.toNat)
  let (m, q) := if m == 1 <<< 53 then (1 <<< 52, q + 1) else (m, q)
  if q ≤ 971 then some (m, q) else none

/-- The number nearest to `digits * 10 ^ exponent`, where `digits` has `length` digits. Decimals far
out of range are settled by their order of magnitude. -/
def ofDecimal (negative : Bool) (digits length : Nat) (exponent : Int) : Binary64 :=
  if digits == 0 then finite negative 0 (-1074)
  else if exponent + length < -400 then finite negative 0 (-1074)
  else if exponent > 400 then infinite negative
  else
    match nearest? (digits * Nat.pow 10 exponent.toNat) (Nat.pow 10 (-exponent).toNat) with
    | some (m, q) => finite negative m q
    | none => infinite negative

end Binary64

end ClassFold
