import TreeMarkup.Binary64

namespace TreeMarkup.Binary64.Shortest

structure Decimal where
  digits : Nat
  power : Int
deriving DecidableEq, Repr

/-- The reals that round to a number, in units of `2 ^ power`: those between `low` and `high`, ends
included when `closed`. The number itself is `centre`. -/
structure Interval where
  low : Nat
  centre : Nat
  high : Nat
  power : Int
  closed : Bool

def interval (x : Binary64) : Interval where
  low := 4 * x.mantissa - (if x.mantissa = pow2 52 ∧ minExponent < x.exponent then 1 else 2)
  centre := 4 * x.mantissa
  high := 4 * x.mantissa + 2
  power := x.exponent - 2
  closed := x.mantissa % 2 == 0

def factors (p q : Int) : Nat × Nat :=
  (pow10 p.toNat * pow2 (-q).toNat, pow2 q.toNat * pow10 (-p).toNat)

def magnitude (i : Interval) : Int :=
  let k : Int := ((i.centre.log2 : Int) + i.power) * 30103 / 100000
  let above (k : Int) : Bool :=
    let (a, b) := factors k i.power
    i.centre * b < a
  if above k then k else if above (k + 1) then k + 1 else k + 2

def onGrid (i : Interval) (p : Int) : Option Decimal :=
  let (a, b) := factors p i.power
  let inside (d : Nat) : Bool :=
    if i.closed then i.low * b ≤ d * a && d * a ≤ i.high * b
    else i.low * b < d * a && d * a < i.high * b
  let d := i.centre * b / a
  let below := i.centre * b - d * a
  let above := (d + 1) * a - i.centre * b
  let downFirst : Bool := below < above || (below == above && d % 2 == 0)
  let (first, second) := if downFirst then (d, d + 1) else (d + 1, d)
  if inside first then some ⟨first, p⟩ else if inside second then some ⟨second, p⟩ else none

/-- Tries grids of one more digit each, from the coarsest. Seventeen digits always read back, so the
last grid has a hit. -/
def search (i : Interval) (p : Int) : Nat → Decimal
  | 0 => (onGrid i p).getD ⟨0, p⟩
  | n + 1 => match onGrid i p with
    | some d => d
    | none => search i (p - 1) n

def stripZeros : Nat → Decimal → Decimal
  | 0, d => d
  | n + 1, d =>
    if d.digits ≠ 0 ∧ d.digits % 10 = 0 then stripZeros n ⟨d.digits / 10, d.power + 1⟩ else d

def decimal (x : Binary64) : Decimal :=
  let i := interval x
  stripZeros 17 (search i (magnitude i - 1) 16)

end TreeMarkup.Binary64.Shortest
