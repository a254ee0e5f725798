import MonkeyFormat.Number.Binary64

set_option autoImplicit false

/-! # Shortest decimal text

The text of a floating point number has the fewest significant digits that read back as the same
number, and of those the digits nearest to it. -/

namespace MonkeyFormat

/-- A decimal number `digits * 10 ^ power`. -/
structure Decimal where
  digits : Nat
  power : Int
deriving DecidableEq

namespace Decimal

/-- The decimal as a quotient of two integers. -/
def ratio (d : Decimal) : Nat × Nat :=
  if 0 ≤ d.power then (d.digits * Nat.pow 10 d.power.toNat, 1)
  else (d.digits, Nat.pow 10 (-d.power).toNat)

/-- The largest `e` with `10 ^ e ≤ num / den`, for positive `num` and `den`. -/
def magnitude (num den : Nat) : Int :=
  if den ≤ num then ((Nat.toDigits 10 (num / den)).length : Int) - 1
  else
    let size := (Nat.toDigits 10 (den / num)).length
    if den = num * Nat.pow 10 (size - 1) then -((size : Int) - 1) else -(size : Int)

/-- Is the first quotient below the second? -/
def ratioLt (a b : Nat × Nat) : Bool := a.1 * b.2 < b.1 * a.2

/-- Is the first quotient at most the second? -/
def ratioLe (a b : Nat × Nat) : Bool := a.1 * b.2 ≤ b.1 * a.2

end Decimal

namespace Binary64

/-- The ends of the interval of reals that round to the finite number `x`. -/
def neighbourhood (x : Binary64) : (Nat × Nat) × (Nat × Nat) :=
  let m := x.mantissa
  let below := if m = leadWeight ∧ 1 < x.exponentField then 4 * m - 1 else 4 * m - 2
  let scale (a : Nat) : Nat × Nat :=
    if 2 ≤ x.exponent then (a * Nat.pow 2 (x.exponent - 2).toNat, 1)
    else (a, Nat.pow 2 (2 - x.exponent).toNat)
  (scale below, scale (4 * m + 2))

/-- Does the decimal read back as the finite number `x`? The ends of the interval do iff the
significand is even. -/
def readsBack (x : Binary64) (d : Decimal) : Bool :=
  let (low, high) := x.neighbourhood
  if x.mantissa % 2 = 0 then Decimal.ratioLe low d.ratio && Decimal.ratioLe d.ratio high
  else Decimal.ratioLt low d.ratio && Decimal.ratioLt d.ratio high

/-- The decimal of `count` significant digits that reads back as `x` and is nearest to it, of
the two neighbours of `x` on that grid. -/
def shortestOf (x : Binary64) (count : Nat) : Option Decimal :=
  let (num, den) := x.ratio
  let power := Decimal.magnitude num den - count + 1
  let (a, b) := if 0 ≤ power then (num, den * Nat.pow 10 power.toNat) else
    (num * Nat.pow 10 (-power).toNat, den)
  let low : Decimal := ⟨a / b, power⟩
  let high : Decimal := ⟨a / b + 1, power⟩
  let nearer := if roundDiv a b = a / b then low else high
  let farther := if roundDiv a b = a / b then high else low
  if x.readsBack nearer then some nearer
  else if x.readsBack farther then some farther
  else none

/-- Tries one more digit until the decimal reads back; seventeen digits always do. -/
def shortestFrom (x : Binary64) : Nat → Nat → Decimal
  | 0, count => (x.shortestOf count).getD ⟨0, 0⟩
  | fuel + 1, count =>
    match x.shortestOf count with
    | some d => d
    | none => x.shortestFrom fuel (count + 1)

/-- The digits of the shortest decimal of a positive finite number, without final zeros, and the
decimal exponent of the first of them. -/
def shortest (x : Binary64) : List Char × Int :=
  let d := x.shortestFrom 17 1
  let all := Nat.toDigits 10 d.digits
  ((all.reverse.dropWhile (· = '0')).reverse, d.power + all.length - 1)

/-- The text of a number: positional from `10 ^ -4` to below `10 ^ 16`, with an exponent of at
least two digits elsewhere. -/
def toText (x : Binary64) : String :=
  if x.isNaN then "nan"
  else
    let sign := if x.isNegative then "-" else ""
    if x.isInfinite then sign ++ "inf"
    else if x.mantissa = 0 then sign ++ "0.0"
    else
      let (digits, e) := x.shortest
      let body :=
        if -4 ≤ e ∧ e < 0 then
          "0." ++ String.ofList (List.replicate ((-e).toNat - 1) '0' ++ digits)
        else if 0 ≤ e ∧ e < 16 then
          let whole := e.toNat + 1
          let front := digits.take whole ++ List.replicate (whole - digits.length) '0'
          let back := digits.drop whole
          String.ofList front ++ "." ++ String.ofList (if back.isEmpty then ['0'] else back)
        else
          let front := digits.take 1
          let back := digits.drop 1
          let power := Nat.toDigits 10 e.natAbs
          String.ofList front ++ (if back.isEmpty then "" else "." ++ String.ofList back) ++ "e" ++
            (if e < 0 then "-" else "+") ++
            String.ofList (List.replicate (2 - power.length) '0' ++ power)
      sign ++ body

end Binary64

end MonkeyFormat
