import TreeMarkup.Binary64.Shortest
import TreeMarkup.Json

namespace TreeMarkup

structure Numeral where
  negative : Bool
  whole : List Char
  fraction : Option (List Char)
  exponent : Option Int
deriving DecidableEq, Repr

namespace Numeral

def digit (c : Char) : Nat := c.toNat - '0'.toNat

def absorb (s : Nat) : List Char → Nat × List Char
  | [] => (s, [])
  | c :: cs =>
    if 10 * s + digit c < Binary64.pow2 64 then absorb (10 * s + digit c) cs else (s, c :: cs)

def powerOfTen (n : Nat) : Binary64 :=
  (Binary64.ofNat (Binary64.pow10 n)).getD (Binary64.zero false)

def lower : Nat → Binary64 → Nat → Option Binary64
  | 0, x, _ => some x
  | fuel + 1, x, n =>
    if x.isZero then some x
    else if n ≤ 308 then x.div (powerOfTen n)
    else (x.div (powerOfTen 308)).bind fun y => lower fuel y (n - 308)

def scale (s : Nat) (k : Int) : Option Binary64 := do
  let x ← Binary64.ofNat s
  if x.isZero then some x
  else if 308 < k then none
  else if 0 ≤ k then x.mul (powerOfTen k.toNat)
  else lower (k.natAbs / 308 + 1) x k.natAbs

def signed (negative : Bool) (x : Binary64) : Binary64 :=
  if negative then x.neg else x

/-- Numerals without fraction and exponent are whole numbers when they lie in `-2 ^ 63 .. 2 ^ 64 - 1`
and are not `-0`. -/
def number? (n : Numeral) : Option Number :=
  let (s, dropped) := absorb 0 n.whole
  if n.fraction.isNone ∧ n.exponent.isNone ∧ dropped.isEmpty then
    if n.negative = false then some (.whole s)
    else if 0 < s ∧ s ≤ Binary64.pow2 63 then some (.whole (-s))
    else (Binary64.ofNat s).map fun x => .float x.neg
  else
    let digits := n.fraction.getD []
    let (s, ignored) := absorb s digits
    let k : Int := dropped.length - (digits.length - ignored.length : Nat) + n.exponent.getD 0
    (scale s k).map fun x => .float (signed n.negative x)

end Numeral

namespace Binary64

def zeros (n : Nat) : String :=
  String.ofList (List.replicate n '0')

def pointed (digits : List Char) (n : Nat) : String :=
  String.ofList (digits.take n) ++ "." ++ String.ofList (digits.drop n)

def magnitudeText (x : Binary64) : String :=
  if x.isZero then "0.0"
  else
    let d := Shortest.decimal x
    let digits := Nat.toDigits 10 d.digits
    let e : Int := d.power + digits.length - 1
    if -5 ≤ e ∧ e < 16 then
      if 0 ≤ d.power then String.ofList digits ++ zeros d.power.toNat ++ ".0"
      else if 0 ≤ e then pointed digits (e + 1).toNat
      else "0." ++ zeros (-e - 1).toNat ++ String.ofList digits
    else
      let mantissa := if digits.length = 1 then String.ofList digits else pointed digits 1
      mantissa ++ (if 0 ≤ e then "e+" else "e-") ++ Nat.repr e.natAbs

def text (x : Binary64) : String :=
  if x.negative then "-" ++ x.magnitudeText else x.magnitudeText

end Binary64

namespace Number

def text : Number → String
  | .whole n => if n < 0 then "-" ++ Nat.repr n.natAbs else Nat.repr n.natAbs
  | .float x => x.text

end Number
end TreeMarkup
