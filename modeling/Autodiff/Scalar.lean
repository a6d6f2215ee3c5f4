namespace Autodiff

/-- The numbers that expressions are evaluated over: arithmetic, the elementary functions,
comparisons, and the tests that tell usable values from the special ones. -/
class Scalar (α : Type) extends
    Zero α, One α, Add α, Sub α, Mul α, Div α, Neg α, IntCast α, LT α, LE α, BEq α where
  decLt (a b : α) : Decidable (a < b)
  decLe (a b : α) : Decidable (a ≤ b)
  exp : α → α
  log : α → α
  sqrt : α → α
  pow : α → α → α
  /-- Neither infinite nor undefined. -/
  isFinite : α → Bool
  /-- Has no fractional part; false for infinite and undefined values. -/
  isInteger : α → Bool
  /-- The gap between one and the next larger number. -/
  epsilon : α
  /-- The undefined value, the answer of a term outside its domain. -/
  nan : α

namespace Scalar

variable {α : Type} [Scalar α]

instance (a b : α) : Decidable (a < b) := Scalar.decLt a b

instance (a b : α) : Decidable (a ≤ b) := Scalar.decLe a b

def two : α := 1 + 1

def three : α := two + 1

def half : α := 1 / two

/-- The quotient of two integers, for constants such as one tenth. -/
def ratio (n d : Int) : α := (n : α) / (d : α)

/-- Only an undefined value differs from itself. -/
def isNaN (a : α) : Bool := !(a == a)

def abs (a : α) : α := if a < 0 then -a else a

/-- The smaller of two values, ignoring an undefined one. -/
def min (a b : α) : α := if isNaN a then b else if b < a then b else a

/-- The larger of two values, ignoring an undefined one. -/
def max (a b : α) : α := if isNaN a then b else if a < b then b else a

/-- The sum of a list from left to right. It starts from negative zero, the value that
leaves every summand as it is, so an empty sum is negative zero. -/
def total (xs : List α) : α := xs.foldl (· + ·) (-0)

end Scalar

/-- Whether a number in binary is finite and has no fractional part: a negative exponent is made up
for by the mantissa. -/
def isWhole : Float.Model.UnpackedFloat → Bool
  | .zero _ => true
  | .finite _ mantissa exponent _ =>
    decide (0 ≤ exponent) || mantissa % Nat.pow 2 (-exponent).toNat == 0
  | .infinity _ | .notANumber => false

instance : Scalar Float where
  zero := 0
  one := 1
  intCast := Float.ofInt
  decLt a b := inferInstanceAs (Decidable (a < b))
  decLe a b := inferInstanceAs (Decidable (a ≤ b))
  exp := Float.exp
  log := Float.log
  sqrt := Float.sqrt
  pow := Float.pow
  isFinite := Float.isFinite
  isInteger x := isWhole x.toModel.unpack
  epsilon := Float.ofBits 0x3cb0000000000000
  nan := 0.0 / 0.0

instance : Scalar Float32 where
  zero := 0
  one := 1
  intCast := Float32.ofInt
  decLt a b := inferInstanceAs (Decidable (a < b))
  decLe a b := inferInstanceAs (Decidable (a ≤ b))
  exp := Float32.exp
  log := Float32.log
  sqrt := Float32.sqrt
  pow := Float32.pow
  isFinite := Float32.isFinite
  isInteger x := isWhole x.toModel.unpack
  epsilon := Float32.ofBits 0x34000000
  nan := 0.0 / 0.0

end Autodiff
