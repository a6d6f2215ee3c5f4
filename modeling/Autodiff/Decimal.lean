namespace Autodiff

/-- A positive binary fraction `significand * 2 ^ exponent`. In `atPowerOfTwo` the neighbour
below is only half as far away as the one above. -/
structure BinaryFraction where
  significand : Nat
  exponent : Int
  atPowerOfTwo : Bool

/-- The magnitude of a finite double, read off its bits. -/
def BinaryFraction.ofFloat (x : Float) : BinaryFraction :=
  let bits := x.toBits.toNat
  let hidden := Nat.pow 2 52
  let fraction := bits % hidden
  let biased := bits / hidden % 2048
  if biased = 0 then ⟨fraction, -1074, false⟩
  else ⟨hidden + fraction, (biased : Int) - 1075, fraction = 0 ∧ 1 < biased⟩

/-- A decimal number `digits * 10 ^ exponent`. -/
structure Decimal where
  digits : Nat
  exponent : Int
  deriving DecidableEq, Repr

namespace Decimal

/-- One grid of decimals `c * 10 ^ k` laid over a binary fraction: the common multiples that
turn a count of grid steps and a count of quarter units of the last binary place into
comparable whole numbers. -/
structure Grid where
  exponent : Int
  step : Nat
  quarter : Nat

def Grid.over (b : BinaryFraction) (k : Int) : Grid :=
  let s := b.exponent - 2
  ⟨k, Nat.pow 10 k.toNat * Nat.pow 2 (-s).toNat, Nat.pow 10 (-k).toNat * Nat.pow 2 s.toNat⟩

/-- Whether the decimal with count `c` on the grid reads back as `b`: it lies between the
midpoints to the neighbours of `b`, and a midpoint itself belongs to an even significand. -/
def Grid.readsBack (g : Grid) (b : BinaryFraction) (c : Nat) : Bool :=
  let lower := (4 * b.significand - if b.atPowerOfTwo then 1 else 2) * g.quarter
  let upper := (4 * b.significand + 2) * g.quarter
  let x := c * g.step
  if b.significand % 2 = 0 then lower ≤ x ∧ x ≤ upper else lower < x ∧ x < upper

/-- The decimal of the grid that reads back as `b`, if there is one. Of two the nearer is
taken, and of two equally near ones the larger. -/
def Grid.pick? (g : Grid) (b : BinaryFraction) : Option Nat :=
  let x := 4 * b.significand * g.quarter
  let below := x / g.step
  let nearerBelow := 2 * x < (2 * below + 1) * g.step
  match decide (0 < below) && g.readsBack b below, g.readsBack b (below + 1) with
  | true, true => some (if nearerBelow then below else below + 1)
  | true, false => some below
  | false, true => some (below + 1)
  | false, false => none

/-- The power of ten of the leading digit, or one more: an estimate from the binary length. -/
def leadingExponent (b : BinaryFraction) : Int :=
  (b.significand.log2 + b.exponent) * 30103 / 100000 + 1

/-- Tries ever finer grids, `fuel + 1` of them at most. -/
def search (b : BinaryFraction) : Nat → Int → Decimal
  | 0, k => ⟨((Grid.over b k).pick? b).getD 0, k⟩
  | fuel + 1, k =>
    match (Grid.over b k).pick? b with
    | some c => ⟨c, k⟩
    | none => search b fuel (k - 1)

/-- Moves trailing zeros of the digits into the exponent. -/
def trim : Nat → Decimal → Decimal
  | 0, d => d
  | fuel + 1, d => if d.digits % 10 = 0 then trim fuel ⟨d.digits / 10, d.exponent + 1⟩ else d

/-- The fewest digits that read back as the magnitude of a finite non-zero double. -/
def shortest (x : Float) : Decimal :=
  let b := BinaryFraction.ofFloat x
  trim 18 (search b 20 (leadingExponent b))

def digitText (d : Decimal) : String := toString d.digits

/-- Written out in full, without an exponent. -/
def positional (d : Decimal) : String :=
  let ds := d.digitText.toList
  if 0 ≤ d.exponent then String.ofList (ds ++ List.replicate d.exponent.toNat '0')
  else
    let places := (-d.exponent).toNat
    let padded := List.replicate (places + 1 - ds.length) '0' ++ ds
    let whole := padded.length - places
    String.ofList (padded.take whole ++ '.' :: padded.drop whole)

/-- Written with one digit before the point and a power of ten. -/
def scientific (d : Decimal) : String :=
  match d.digitText.toList with
  | [] => ""
  | [c] => String.ofList [c] ++ "e" ++ toString d.exponent
  | c :: cs => String.ofList (c :: '.' :: cs) ++ "e" ++ toString (d.exponent + cs.length)

end Decimal

/-- Whether the sign bit of a double is set, also on zero. -/
def signBit (x : Float) : Bool := x.toBits.toNat.testBit 63

/-- A double in a message: the fewest digits that read back, never an exponent. -/
def floatText (x : Float) : String :=
  if x.isNaN then "NaN"
  else
    let magnitude :=
      if x.isInf then "inf" else if x == 0 then "0" else (Decimal.shortest x).positional
    if signBit x then "-" ++ magnitude else magnitude

/-- A finite double with one digit before the point and a power of ten. -/
def floatScientific (x : Float) : String :=
  let magnitude := if x == 0 then "0e0" else (Decimal.shortest x).scientific
  if signBit x then "-" ++ magnitude else magnitude

end Autodiff
