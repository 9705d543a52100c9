import ContractFlow.Data.Double

/-! This module prints floating-point numbers with the fewest digits from which they can be read back. -/

namespace ContractFlow

namespace Decimal

def normalize (fuel : Nat) (mantissa : Nat) (exponent : Int) : Nat × Int :=
  match fuel with
  | 0 => (mantissa, exponent)
  | fuel + 1 =>
    if mantissa != 0 && mantissa % 10 == 0 then normalize fuel (mantissa / 10) (exponent + 1)
    else (mantissa, exponent)

def scientificDigits : List Char → List Char
  | [] => []
  | [c] => [c]
  | c :: cs => c :: '.' :: cs

def magnitude (mantissa : Nat) (exponent : Int) : String :=
  if mantissa == 0 then "0.0" else
    let (mantissa, exponent) := normalize (Nat.toDigits 10 mantissa).length mantissa exponent
    let digits := Nat.toDigits 10 mantissa
    let point : Int := digits.length + exponent
    if -4 < point && point ≤ 16 then
      if point ≤ 0 then
        "0." ++ String.ofList (List.replicate (-point).toNat '0' ++ digits)
      else if digits.length ≤ point.toNat then
        String.ofList (digits ++ List.replicate (point.toNat - digits.length) '0') ++ ".0"
      else
        String.ofList (digits.take point.toNat ++ '.' :: digits.drop point.toNat)
    else
      let power := point - 1
      let size := toString power.natAbs
      String.ofList (scientificDigits digits) ++ "e" ++ (if power < 0 then "-" else "+") ++
        (if size.length < 2 then "0" ++ size else size)

def compareScaled (a : Nat) (i : Int) (b : Nat) (j : Int) : Ordering :=
  compare (a * Nat.pow 10 i.toNat * Nat.pow 2 (-j).toNat) (b * Nat.pow 2 j.toNat * Nat.pow 10 (-i).toNat)

/--
Whether `digits * 10 ^ power` rounds to `m * 2 ^ e`. The numbers that do are at most half of the distance
to the next number away, which is smaller below a power of two; both ends belong to them if `m` is even.
-/
def readsBack (m : Nat) (e : Int) (digits : Nat) (power : Int) : Bool :=
  let narrow := m == Double.leastMantissa && Double.leastExponent < e
  let low := compareScaled digits power (4 * m - if narrow then 1 else 2) (e - 2)
  let high := compareScaled digits power (4 * m + 2) (e - 2)
  let even := m % 2 == 0
  (low == .gt || even && low == .eq) && (high == .lt || even && high == .eq)

def multiple? (m : Nat) (e : Int) (power : Int) : Option Nat :=
  let below := m * Nat.pow 2 e.toNat * Nat.pow 10 (-power).toNat /
    (Nat.pow 10 power.toNat * Nat.pow 2 (-e).toNat)
  match readsBack m e below power, readsBack m e (below + 1) power with
  | true, true =>
    match compareScaled (2 * below + 1) power (2 * m) e with
    | .gt => some below
    | .lt => some (below + 1)
    | .eq => some (below + below % 2)
  | true, false => some below
  | false, true => some (below + 1)
  | false, false => none

def search (m : Nat) (e : Int) (fuel : Nat) (power : Int) : Nat × Int :=
  match fuel, multiple? m e power with
  | _, some digits => (digits, power)
  | 0, none => (m * Nat.pow 2 e.toNat * Nat.pow 5 (-e).toNat, min e 0)
  | fuel + 1, none => search m e fuel (power - 1)

def shortest (m : Nat) (e : Int) : Nat × Int :=
  search m e 20 (((m.log2 : Int) + e + 1) * 30103 / 100000 + 1)

end Decimal

def Double.text : Double → String
  | .nan => "nan"
  | .infinite negative => if negative then "-inf" else "inf"
  | .finite negative m e =>
    let (digits, power) := if m = 0 then (0, 0) else Decimal.shortest m e
    (if negative then "-" else "") ++ Decimal.magnitude digits power

end ContractFlow
