import PinFloor.Text.Decimal

/-!
# The shortest text of a binary fraction

A decimal number is rounded to the nearest number with 53 binary digits, and that is written with
the fewest decimal digits that round to it again; of several such texts the nearest is taken. The
text is positional and has a point.
-/

namespace PinFloor.ShortestDecimal

/-- The least number with 53 binary digits. -/
def leastDigits : Nat := Nat.pow 2 52

/-- The least power of two that the numbers are multiples of. -/
def leastExponent : Int := -1074

/-- The power of two that the greatest numbers are multiples of. -/
def greatestExponent : Int := 971

/-- Numbers with fewer digits before the point are rounded to zero. -/
def leastMagnitude : Int := -323

/-- Numbers with more digits before the point are too large. -/
def greatestMagnitude : Int := 309

/-- The quotient rounded to the nearest number; a tie goes to the even one. -/
def roundDiv (num den : Nat) : Nat :=
  let q := num / den
  let r := 2 * (num % den)
  if r < den ∨ (r = den ∧ q % 2 = 0) then q else q + 1

/-- `num / den` times a power of a base, as a fraction. -/
def scale (base : Nat) (num den : Nat) : Int → Nat × Nat
  | .ofNat e => (num * base.pow e, den)
  | .negSucc e => (num, den * base.pow (e + 1))

/-- The nearest number `m * 2 ^ q` to a positive fraction, with at most 53 binary digits in `m`. -/
def nearest (num den : Nat) : Nat × Int :=
  let guess : Int := (num.log2 : Int) - (den.log2 : Int) - 53
  let q := max guess leastExponent
  let rounded (q : Int) : Nat := let (n, d) := scale 2 num den (-q); roundDiv n d
  if rounded q < 2 * leastDigits then (rounded q, q)
  else if rounded (q + 1) < 2 * leastDigits then (rounded (q + 1), q + 1)
  else (leastDigits, q + 2)

/-- The interval of the fractions that round to `m * 2 ^ q`, as numerators over four times the
    numerator of the number itself: its lower end, the number and its upper end. -/
def interval (m : Nat) (q : Int) : Nat × Nat × Nat :=
  (if m = leastDigits ∧ leastExponent < q then 4 * m - 1 else 4 * m - 2, 4 * m, 4 * m + 2)

/-- The number of digits before the point of a fraction, negative if zeros follow the point. -/
def digitsBefore (num den : Nat) : Int :=
  let guess : Int := ((Decimal.digits num).length : Int) - ((Decimal.digits den).length : Int)
  let (n, d) := scale 10 num den (-guess)
  if d ≤ n then guess + 1 else guess

/-- The digits, `count` of them, whose number times `10 ^ step` is in the interval and nearest to
    the number. -/
def digitsIn? (m : Nat) (q : Int) (step : Int) : Option Nat :=
  let (low, here, high) := interval m q
  let (n, d) := scale 2 1 4 q
  let (n, d) := scale 10 n d (-step)
  -- Candidates are compared with the interval over the common denominator `d`.
  let down := here * n / d
  let inside (k : Nat) : Bool :=
    if m % 2 = 0 then low * n ≤ k * d && k * d ≤ high * n else low * n < k * d && k * d < high * n
  let up := down + 1
  match inside down, inside up with
  | true, true =>
      if here * n - down * d < up * d - here * n ∨
          (here * n - down * d = up * d - here * n ∧ down % 2 = 0) then some down else some up
  | true, false => some down
  | false, true => some up
  | false, false => none

/-- The fewest digits for `m * 2 ^ q`, tried from `count` on, and the power of ten of the last. A
    number that is rounded up to a power of ten has one digit less. -/
def fewest (m : Nat) (q : Int) (before : Int) (count : Nat) : Nat → Nat × Int
  | 0 => (m, 0)
  | fuel + 1 =>
      let step := before - count
      match digitsIn? m q step with
      | some k => if k % 10 = 0 then (k / 10, step + 1) else (k, step)
      | none => fewest m q before (count + 1) fuel

/-- Digits with a point before the last `- step` of them, or with zeros after them. -/
def place (digits : List Char) (step : Int) : List Char :=
  match step with
  | .ofNat zeros => digits ++ List.replicate zeros '0' ++ ['.', '0']
  | .negSucc e =>
      let after := e + 1
      let padded := List.replicate (after + 1 - digits.length) '0' ++ digits
      padded.take (padded.length - after) ++ '.' :: padded.drop (padded.length - after)

/-- The number of digits before the point of `value * 10 ^ exponent`, negative if zeros follow the
    point. -/
def magnitude (value : Nat) (exponent : Int) : Int :=
  (Decimal.digits value).length + exponent

/-- The text of the number `value * 10 ^ exponent`, unless it is too large. One that is too small
    is zero. What is far too large or too small is not computed. -/
def text? (negative : Bool) (value : Nat) (exponent : Int) : Option String :=
  let sign := if negative then "-" else ""
  let zero := some (sign ++ "0.0")
  if value = 0 ∨ magnitude value exponent < leastMagnitude then zero
  else if greatestMagnitude < magnitude value exponent then none
  else
    let (num, den) := scale 10 value 1 exponent
    let (m, q) := nearest num den
    if m = 0 then zero
    else if greatestExponent < q then none
    else
      let (n, d) := scale 2 m 1 q
      let (k, step) := fewest m q (digitsBefore n d) 1 17
      some (sign ++ String.ofList (place (Decimal.digits k) step))

end PinFloor.ShortestDecimal
