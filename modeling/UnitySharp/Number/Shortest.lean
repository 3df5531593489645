import UnitySharp.Number.Double

/-!
# The shortest decimal of a double

Every double is the nearest one to a whole interval of real numbers.  Its decimal form is the
shortest decimal in that interval, and among those of that length the one closest to the
double.  The search goes through one up to seventeen digits and tests the two neighbours of the
value on each decimal grid.
-/

namespace UnitySharp

/-- A decimal number `0.d₁d₂… * 10 ^ point`, by its digits. -/
structure DecimalDigits where
  digits : List Nat
  point : Int
deriving DecidableEq, Repr

/-- The reals that round to a double, as multiples of `1 / den`. -/
structure RoundingInterval where
  value : Nat
  below : Nat
  above : Nat
  den : Nat
  closed : Bool

/-- The interval of `significand * 2 ^ exponent`.  Below a power of two the next double is half as
far; the ends belong to the interval when the significand is even. -/
def roundingInterval (significand : Nat) (exponent : Int) : RoundingInterval :=
  let scale : Nat := if 0 ≤ exponent then Nat.pow 2 exponent.toNat else 1
  let den : Nat := if 0 ≤ exponent then 4 else 4 * Nat.pow 2 (-exponent).toNat
  let narrow := significand == Nat.pow 2 52 && Double.leastExponent < exponent
  { value := 4 * significand * scale
    below := (4 * significand - if narrow then 1 else 2) * scale
    above := (4 * significand + 2) * scale
    den := den
    closed := significand % 2 == 0 }

/-- Whether `num / den'` lies in the interval, with `num` and `den'` over the interval's denominator
cross-multiplied by the caller. -/
def RoundingInterval.contains (r : RoundingInterval) (num scale : Nat) : Bool :=
  let low := r.below * scale
  let high := r.above * scale
  if r.closed then low ≤ num && num ≤ high else low < num && num < high

/-- The decimal exponent `k` with `10 ^ (k - 1) ≤ value < 10 ^ k`, found from an estimate that is
never too high. -/
def decimalPoint (value den : Nat) : Int :=
  let estimate : Int := ((value.log2 : Int) - (den.log2 : Int) - 1) * 30103 / 100000 - 1
  let below (k : Int) : Bool :=
    if 0 ≤ k then value < den * Nat.pow 10 k.toNat else value * Nat.pow 10 (-k).toNat < den
  let steps := (List.range 6).map fun (i : Nat) => estimate + (i : Int)
  (steps.find? below).getD (estimate + 6)

/-- The neighbour of the value with `count` digits that lies in the interval, if there is one. -/
def nearestWithDigits (r : RoundingInterval) (point : Int) (count : Nat) : Option Nat :=
  let power : Int := point - count
  let unit : Nat := if 0 ≤ power then r.den * Nat.pow 10 power.toNat else r.den
  let scale : Nat := if 0 ≤ power then 1 else Nat.pow 10 (-power).toNat
  let scaled := r.value * scale
  let floor := scaled / unit
  let lower := r.contains (floor * unit) scale
  let upper := r.contains ((floor + 1) * unit) scale
  let distanceLow := scaled - floor * unit
  let distanceHigh := (floor + 1) * unit - scaled
  match lower, upper with
  | true, true =>
    if distanceLow < distanceHigh then some floor
    else if distanceHigh < distanceLow then some (floor + 1)
    else some (if floor % 2 == 0 then floor else floor + 1)
  | true, false => some floor
  | false, true => some (floor + 1)
  | false, false => none

def decimalDigitsOf (n : Nat) : List Nat :=
  (Nat.toDigits 10 n).map fun c => c.toNat - 48

def shortestDigits (significand : Nat) (exponent : Int) : DecimalDigits :=
  let r := roundingInterval significand exponent
  let point := decimalPoint r.value r.den
  let tries := (List.range 17).filterMap fun (i : Nat) =>
    (nearestWithDigits r point (i + 1)).map fun n => (i + 1, n)
  match tries.head? with
  | none => ⟨[0], 1⟩
  | some (count, n) =>
    let digits := decimalDigitsOf n
    let carried : Int := point + ((digits.length : Int) - (count : Int))
    ⟨(digits.reverse.dropWhile (· == 0)).reverse, carried⟩

/-- Where positional notation ends and how the exponent of scientific notation looks. -/
structure DecimalLayout where
  leastPositional : Int
  mostPositional : Int
  keepFraction : Bool
  exponentDigits : Nat
  infinity : String
  notANumber : String

/-- Numbers from `0.0001` up to sixteen digits are written positionally and keep a digit after the
point; all others have a signed exponent of two digits at least. -/
def plainLayout : DecimalLayout :=
  { leastPositional := -4
    mostPositional := 15
    keepFraction := true
    exponentDigits := 2
    infinity := "inf"
    notANumber := "nan" }

def digitText (digits : List Nat) : String :=
  String.ofList (digits.map fun d => Char.ofNat (48 + d))

def positionalText (layout : DecimalLayout) (d : DecimalDigits) : String :=
  if d.point ≤ 0 then
    "0." ++ digitText (List.replicate (-d.point).toNat 0) ++ digitText d.digits
  else
    let whole := d.digits.take d.point.toNat
    let fraction := d.digits.drop d.point.toNat
    let padded := whole ++ List.replicate (d.point.toNat - whole.length) 0
    if fraction.isEmpty then
      digitText padded ++ (if layout.keepFraction then ".0" else "")
    else digitText padded ++ "." ++ digitText fraction

def scientificText (layout : DecimalLayout) (d : DecimalDigits) : String :=
  let exponent := d.point - 1
  let shown := decimalDigitsOf exponent.natAbs
  let padded := List.replicate (layout.exponentDigits - shown.length) 0 ++ shown
  let mantissa :=
    match d.digits with
    | [] => "0"
    | [d] => digitText [d]
    | first :: rest => digitText [first] ++ "." ++ digitText rest
  mantissa ++ (if exponent < 0 then "e-" else "e+") ++ digitText padded

def Double.textIn (layout : DecimalLayout) : Double → String
  | .notANumber => layout.notANumber
  | .infinite negative => (if negative then "-" else "") ++ layout.infinity
  | .finite negative significand exponent =>
    let d := if significand = 0 then ⟨[0], 1⟩ else shortestDigits significand exponent
    let power := d.point - 1
    let body :=
      if layout.leastPositional ≤ power && power ≤ layout.mostPositional then positionalText layout
        d
      else scientificText layout d
    (if negative then "-" else "") ++ body

def Double.text (x : Double) : String :=
  x.textIn plainLayout

end UnitySharp
