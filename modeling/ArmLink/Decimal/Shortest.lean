import ArmLink.Decimal.Binary64

/-!
# The shortest decimal of a floating point number

Of the decimals that read back as a given number of double precision, the shortest is written: the
one with the fewest digits, and of those the nearest to the number.

* `Binary64.readsBack` — whether a decimal lies among the reals that round to the number;
* `Binary64.shortest` — for 1, 2, … digits, the two neighbours of the number on that decimal grid
  are tried.
-/

namespace ArmLink

/-- The decimal `digits * 10 ^ exponent`. -/
structure Decimal where
  digits : Nat
  exponent : Int
  deriving DecidableEq, Repr

/-- Which of two equally near decimals is taken. -/
inductive Tie where
  | toEven
  | upward
  deriving DecidableEq, Repr

namespace Binary64

/-- Compares `a * 10 ^ i` with `n * 2 ^ j`, exactly. -/
def compareScaled (a : Nat) (i : Int) (n : Nat) (j : Int) : Ordering :=
  compare (a * tens i.toNat * twos (-j).toNat) (n * twos j.toNat * tens (-i).toNat)

/-- Whether a decimal lies among the reals that round to the number. The ends of that interval
belong to it exactly if the significand is even. -/
def readsBack (x : Binary64) (d : Decimal) : Bool :=
  let low := if x.narrowBelow then 4 * x.m - 1 else 4 * x.m - 2
  let closed := x.m % 2 = 0
  let fromLow := compareScaled d.digits d.exponent low (x.q - 2)
  let toHigh := compareScaled d.digits d.exponent (4 * x.m + 2) (x.q - 2)
  (fromLow == .gt || (closed && fromLow == .eq)) && (toHigh == .lt || (closed && toHigh == .eq))

/-- The least `k` among the candidates with `x < 10 ^ k`. -/
def scale (x : Binary64) : Int :=
  let guess : Int := (((x.m.log2 : Int) + x.q) * 1233) / 4096
  let candidates := [guess - 1, guess, guess + 1]
  (candidates.find? fun k => compareScaled 1 k x.m x.q == .gt).getD (guess + 2)

/-- The nearer of two neighbours `below` and `below + 1` on the grid `10 ^ grid`. -/
def nearer (x : Binary64) (tie : Tie) (below : Nat) (grid : Int) : Decimal :=
  match compareScaled (2 * below + 1) grid (2 * x.m) x.q with
  | .gt => ⟨below, grid⟩
  | .lt => ⟨below + 1, grid⟩
  | .eq =>
    match tie with
    | .upward => ⟨below + 1, grid⟩
    | .toEven => ⟨below + below % 2, grid⟩

/-- The decimal of the grid `10 ^ grid` that reads back, if there is one. -/
def onGrid? (x : Binary64) (tie : Tie) (grid : Int) : Option Decimal :=
  let below := x.m * twos x.q.toNat * tens (-grid).toNat / (twos (-x.q).toNat * tens grid.toNat)
  match x.readsBack ⟨below, grid⟩, x.readsBack ⟨below + 1, grid⟩ with
  | true, true => some (x.nearer tie below grid)
  | true, false => some ⟨below, grid⟩
  | false, true => some ⟨below + 1, grid⟩
  | false, false => none

/-- A decimal without trailing zeros. -/
def strip : Nat → Decimal → Decimal
  | 0, d => d
  | fuel + 1, d =>
    if d.digits % 10 = 0 ∧ d.digits ≠ 0 then strip fuel ⟨d.digits / 10, d.exponent + 1⟩ else d

/-- The shortest decimal that reads back. -/
def shortest (x : Binary64) (tie : Tie) : Decimal :=
  if x.m = 0 then ⟨0, 0⟩
  else
    let grids := (List.range 17).map fun (n : Nat) => x.scale - 1 - n
    match grids.findSome? (x.onGrid? tie) with
    | some d => strip 20 d
    | none => ⟨x.m * twos x.q.toNat * Nat.pow 5 (-x.q).toNat, -((-x.q).toNat : Int)⟩

end Binary64

namespace Decimal

/-- A decimal with a point and without an exponent; whole numbers end in `.0`. -/
def positional (d : Decimal) : String :=
  let digits := Nat.toDigits 10 d.digits
  if 0 ≤ d.exponent then
    String.ofList (digits ++ List.replicate d.exponent.toNat '0' ++ ['.', '0'])
  else
    let places := (-d.exponent).toNat
    let padded := List.replicate (places + 1 - digits.length) '0' ++ digits
    let whole := padded.length - places
    String.ofList (padded.take whole ++ ['.'] ++ padded.drop whole)

/-- A decimal in positional form from `10 ^ -5` up to `10 ^ 16`, and with a signed exponent
elsewhere. -/
def scientific (d : Decimal) : String :=
  let digits := Nat.toDigits 10 d.digits
  let lead : Int := digits.length + d.exponent
  if -5 < lead ∧ lead ≤ 16 then d.positional
  else
    let tail := digits.drop 1
    String.ofList (digits.take 1 ++ (if tail.isEmpty then [] else '.' :: tail))
      ++ (if 0 < lead then "e+" else "e") ++ toString (lead - 1)

end Decimal

end ArmLink
