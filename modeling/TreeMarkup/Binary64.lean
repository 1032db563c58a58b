namespace TreeMarkup

/-- The number `± mantissa * 2 ^ exponent`. In lowest form the mantissa has 53 bits, or fewer at the
least exponent `-1074`. -/
structure Binary64 where
  negative : Bool
  mantissa : Nat
  exponent : Int
deriving DecidableEq, Repr, Inhabited

namespace Binary64

def pow2 (n : Nat) : Nat := Nat.pow 2 n

def pow10 (n : Nat) : Nat := Nat.pow 10 n

def minExponent : Int := -1074
def maxExponent : Int := 971

def zero (negative : Bool) : Binary64 := ⟨negative, 0, minExponent⟩

def isZero (x : Binary64) : Bool := x.mantissa == 0

def neg (x : Binary64) : Binary64 := { x with negative := !x.negative }

def sameValue (x y : Binary64) : Bool := x == y || (x.isZero && y.isZero)

def roundDiv (n d : Nat) : Nat :=
  let q := n / d
  let r := n % d
  if d < 2 * r ∨ (2 * r = d ∧ q % 2 = 1) then q + 1 else q

def scaled (numerator denominator : Nat) (e : Int) : Nat × Nat :=
  (numerator * pow2 (-e).toNat, denominator * pow2 e.toNat)

def leadingExponent (numerator denominator : Nat) : Int :=
  let e : Int := numerator.log2 - denominator.log2 - 53
  let (n, d) := scaled numerator denominator e
  max minExponent (if n / d < pow2 53 then e else e + 1)

/-- The binary64 number nearest to `± numerator / denominator`; `none` when it is too large. -/
def ofRatio (negative : Bool) (numerator denominator : Nat) : Option Binary64 :=
  if numerator = 0 then some (zero negative)
  else
    let e := leadingExponent numerator denominator
    let (n, d) := scaled numerator denominator e
    let m := roundDiv n d
    let (m, e) := if m = pow2 53 then (pow2 52, e + 1) else (m, e)
    if maxExponent < e then none else some ⟨negative, m, e⟩

def ofNat (n : Nat) : Option Binary64 := ofRatio false n 1

def ratio (x : Binary64) : Nat × Nat :=
  (x.mantissa * pow2 x.exponent.toNat, pow2 (-x.exponent).toNat)

def mul (x y : Binary64) : Option Binary64 :=
  ofRatio (x.negative != y.negative) (x.ratio.1 * y.ratio.1) (x.ratio.2 * y.ratio.2)

def div (x y : Binary64) : Option Binary64 :=
  ofRatio (x.negative != y.negative) (x.ratio.1 * y.ratio.2) (x.ratio.2 * y.ratio.1)

def natValue? (x : Binary64) : Option Nat :=
  let (n, d) := x.ratio
  if n % d = 0 then some (n / d) else none

end Binary64
end TreeMarkup
