/-!
# Double precision numbers

A finite value `finite s m e` stands for `± m * 2 ^ e`, so every operation is exact arithmetic on
natural numbers; the functions that build one give it the least exponent a 53-bit significand
allows.
-/

namespace UnitySharp

inductive Double where
  | finite (negative : Bool) (significand : Nat) (exponent : Int)
  | infinite (negative : Bool)
  | notANumber
deriving DecidableEq, Repr

namespace Double

def leastExponent : Int := -1074

def greatestExponent : Int := 971

/-- `num / den` to the nearest natural number, a half going to the even neighbour. -/
def roundedQuotient (num den : Nat) : Nat :=
  let floor := num / den
  let twice := 2 * (num % den)
  if twice < den then floor
  else if den < twice then floor + 1
  else if floor % 2 == 0 then floor else floor + 1

/-- `num / den` divided by `2 ^ e`, as numerator and denominator. -/
def scaledRatio (num den : Nat) (e : Int) : Nat × Nat :=
  if 0 ≤ e then (num, den * Nat.pow 2 e.toNat) else (num * Nat.pow 2 (-e).toNat, den)

/-- The double nearest to `num / den`, a half going to the even significand. -/
def ofRatio (negative : Bool) (num den : Nat) : Double :=
  if num = 0 then .finite negative 0 0
  else
    let guess : Int := (num.log2 : Int) - (den.log2 : Int) - 53
    let (n, d) := scaledRatio num den guess
    let fitted := if Nat.pow 2 53 ≤ n / d then guess + 1 else guess
    let e := max fitted leastExponent
    let (n, d) := scaledRatio num den e
    let m := roundedQuotient n d
    let (m, e) := if m = Nat.pow 2 53 then (Nat.pow 2 52, e + 1) else (m, e)
    if greatestExponent < e then .infinite negative
    else if m = 0 then .finite negative 0 0
    else .finite negative m e

/-- The double nearest to `digits * 10 ^ power`.  Powers far outside the range of doubles are
settled before any large number is built. -/
def ofDecimal (negative : Bool) (digits : Nat) (power : Int) : Double :=
  if digits = 0 then .finite negative 0 0
  else
    let magnitude := (digits.log2 : Int) / 4 + power
    if 400 < magnitude then .infinite negative
    else if (digits.log2 : Int) + power < -800 then .finite negative 0 0
    else if 0 ≤ power then ofRatio negative (digits * Nat.pow 10 power.toNat) 1
    else ofRatio negative digits (Nat.pow 10 (-power).toNat)

def ofInt (i : Int) : Double :=
  ofRatio (i < 0) i.natAbs 1

def truncate? : Double → Option Int
  | .finite negative m e =>
    let magnitude : Nat := if 0 ≤ e then m * Nat.pow 2 e.toNat else m / Nat.pow 2 (-e).toNat
    some (if negative then -(magnitude : Int) else magnitude)
  | .infinite _ => none
  | .notANumber => none

def equalsInt (x : Double) (i : Int) : Bool :=
  match x with
  | .finite negative m e =>
    let signed : Int := if negative then -(m : Int) else m
    if 0 ≤ e then signed * Int.ofNat (Nat.pow 2 e.toNat) == i else signed == i * Int.ofNat
      (Nat.pow 2 (-e).toNat)
  | .infinite _ => false
  | .notANumber => false

/-- Equality as numbers: the two zeros are equal, and what is not a number differs from itself. -/
def equals : Double → Double → Bool
  | .finite n₁ m₁ e₁, .finite n₂ m₂ e₂ =>
    (m₁ == 0 && m₂ == 0) || (n₁ == n₂ && m₁ == m₂ && e₁ == e₂)
  | .infinite n₁, .infinite n₂ => n₁ == n₂
  | _, _ => false

def isZero : Double → Bool
  | .finite _ m _ => m == 0
  | .infinite _ => false
  | .notANumber => false

def negated : Double → Double
  | .finite negative m e => .finite (!negative) m e
  | .infinite negative => .infinite (!negative)
  | .notANumber => .notANumber

end Double

end UnitySharp
