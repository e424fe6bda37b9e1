/-!
# Floating point numbers of double precision

A finite number is `m * 2 ^ q` with `m` below `2 ^ 53`. `Binary64.ofDecimal?` is the number nearest
to a decimal, where a tie goes to the even neighbour; it is computed in exact arithmetic.
-/

namespace ArmLink

/-- A finite number of double precision that is not negative, `m * 2 ^ q`. -/
structure Binary64 where
  /-- the significand, below `2 ^ 53` -/
  m : Nat
  /-- the exponent, at least `-1074` -/
  q : Int
  deriving DecidableEq, Repr

namespace Binary64

abbrev twos (n : Nat) : Nat := Nat.pow 2 n

abbrev tens (n : Nat) : Nat := Nat.pow 10 n

def leastExponent : Int := -1074

def greatestExponent : Int := 971

/-- Whether the next number below is only half as far away as the next number above. -/
def narrowBelow (x : Binary64) : Bool := x.m = twos 52 && leastExponent < x.q

/-- A quotient rounded to the nearest whole number, a tie to the even one. -/
def roundedQuotient (n d : Nat) : Nat :=
  let floor := n / d
  let rest := 2 * (n % d)
  if rest < d then floor
  else if d < rest then floor + 1
  else floor + floor % 2

/-- The quotient `n / d` in units of `2 ^ q`, rounded down. -/
def unitsBelow (n d : Nat) (q : Int) : Nat := n * twos (-q).toNat / (d * twos q.toNat)

/-- The quotient `n / d` in units of `2 ^ q`, rounded to nearest. -/
def nearestUnits (n d : Nat) (q : Int) : Nat :=
  roundedQuotient (n * twos (-q).toNat) (d * twos q.toNat)

/-- The number nearest to the quotient `n / d`, unless it is too large. -/
def ofQuotient? (n d : Nat) : Option Binary64 :=
  if n = 0 then some ⟨0, leastExponent⟩
  else
    let guess : Int := max ((n.log2 : Int) - d.log2 - 53) leastExponent
    let q := if unitsBelow n d guess < twos 53 then guess else guess + 1
    let m := nearestUnits n d q
    let x : Binary64 := if m = twos 53 then ⟨twos 52, q + 1⟩ else ⟨m, q⟩
    if x.q ≤ greatestExponent then some x else none

/-- The number nearest to `digits * 10 ^ exponent`, unless it is too large. -/
def ofDecimal? (digits : Nat) (exponent : Int) : Option Binary64 :=
  let scale : Int := (Nat.toDigits 10 digits).length + exponent
  if digits = 0 ∨ scale < -400 then some ⟨0, leastExponent⟩
  else if 400 < scale then none
  else ofQuotient? (digits * tens exponent.toNat) (tens (-exponent).toNat)

end Binary64

end ArmLink
