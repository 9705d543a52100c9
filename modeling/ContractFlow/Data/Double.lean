/-! This module contains floating-point numbers with 53 bits of precision. -/

namespace ContractFlow

def roundDiv (n d : Nat) : Nat :=
  let q := n / d
  let r := n % d
  if 2 * r < d then q else if d < 2 * r then q + 1 else q + q % 2

/-- A floating-point number. A finite one is `mantissa * 2 ^ exponent` with a sign, which zero has, too. -/
inductive Double where
  | finite (negative : Bool) (mantissa : Nat) (exponent : Int)
  | infinite (negative : Bool)
  | nan
deriving DecidableEq, Inhabited

namespace Double

def leastExponent : Int := -1074

def greatestExponent : Int := 971

def leastMantissa : Nat := Nat.pow 2 52

def zero (negative : Bool) : Double :=
  .finite negative 0 leastExponent

def scaled (n d : Nat) (e : Int) : Nat × Nat :=
  (n * Nat.pow 2 (-e).toNat, d * Nat.pow 2 e.toNat)

def exponentOf (n d : Nat) : Int :=
  let guess : Int := n.log2 - d.log2 - 52
  let (a, b) := scaled n d guess
  max (if a < b * leastMantissa then guess - 1 else guess) leastExponent

def ofRatio (negative : Bool) (n d : Nat) : Double :=
  if n = 0 then zero negative
  else
    let e := exponentOf n d
    let (a, b) := scaled n d e
    let m := roundDiv a b
    let (m, e) := if m = 2 * leastMantissa then (leastMantissa, e + 1) else (m, e)
    if greatestExponent < e then .infinite negative else .finite negative m e

def ofScaled (negative : Bool) (m : Nat) (e : Int) : Double :=
  ofRatio negative (m * Nat.pow 2 e.toNat) (Nat.pow 2 (-e).toNat)

def ofInt (n : Int) : Double :=
  ofRatio (n < 0) n.natAbs 1

def ofDecimal (negative : Bool) (digits : Nat) (exponent : Int) : Double :=
  let size : Int := digits.log2 / 3 + 1 + exponent
  if digits = 0 || size < -330 then zero negative
  else if 400 < exponent then .infinite negative
  else ofRatio negative (digits * Nat.pow 10 exponent.toNat) (Nat.pow 10 (-exponent).toNat)

def withSign (negative : Bool) (n : Nat) : Int :=
  if negative then -(n : Int) else n

def mul : Double → Double → Double
  | .finite s m e, .finite t n f => ofScaled (s != t) (m * n) (e + f)
  | .infinite s, .infinite t => .infinite (s != t)
  | .infinite s, .finite t n _ => if n = 0 then .nan else .infinite (s != t)
  | .finite s m _, .infinite t => if m = 0 then .nan else .infinite (s != t)
  | _, _ => .nan

def add : Double → Double → Double
  | .finite s m e, .finite t n f =>
    let least := min e f
    let part (negative : Bool) (m : Nat) (e : Int) : Int :=
      withSign negative (m * Nat.pow 2 (e - least).toNat)
    let sum := part s m e + part t n f
    if sum = 0 then zero (s && t) else ofScaled (sum < 0) sum.natAbs least
  | .infinite s, .infinite t => if s = t then .infinite s else .nan
  | .infinite s, .finite .. => .infinite s
  | .finite .., .infinite t => .infinite t
  | _, _ => .nan

instance : Mul Double := ⟨mul⟩

instance : Add Double := ⟨add⟩

def neg : Double → Double
  | .finite s m e => .finite (!s) m e
  | .infinite s => .infinite !s
  | .nan => .nan

def parts? : Double → Option (Int × Double)
  | .finite s m e =>
    let unit := Nat.pow 2 (-e).toNat
    some (withSign s (m * Nat.pow 2 e.toNat / unit), ofScaled s (m * Nat.pow 2 e.toNat % unit) (min e 0))
  | _ => none

def isZero : Double → Bool
  | .finite _ m _ => m == 0
  | _ => false

def whole? (x : Double) : Option Int :=
  match x.parts? with
  | some (n, rest) => if rest.isZero then some n else none
  | none => none

def nearest? : Double → Option Int
  | .finite s m e => some (withSign s (roundDiv (m * Nat.pow 2 e.toNat) (Nat.pow 2 (-e).toNat)))
  | _ => none

def compareInt (n : Int) : Double → Option Ordering
  | .finite s m e => some (compare (n * Nat.pow 2 (-e).toNat) (withSign s (m * Nat.pow 2 e.toNat)))
  | .infinite s => some (if s then .gt else .lt)
  | .nan => none

def floor? (x : Double) : Option Int :=
  x.parts?.map fun (n, _) => if x.compareInt n = some .gt then n - 1 else n

def ceil? (x : Double) : Option Int :=
  x.parts?.map fun (n, _) => if x.compareInt n = some .lt then n + 1 else n

def same : Double → Double → Bool
  | .finite s m e, .finite t n f => (m == 0 && n == 0) || (s == t && m == n && e == f)
  | .infinite s, .infinite t => s == t
  | .nan, .nan => true
  | _, _ => false

@[simp]
theorem same_refl (x : Double) : x.same x := by
  cases x <;> simp [same]

end Double

end ContractFlow
