namespace Decompile

/-- The number `digits * 10 ^ exponent`. -/
structure Decimal where
  digits : Nat
  exponent : Int
  deriving DecidableEq

namespace Decimal

structure BinaryFormat where
  fractionBits : Nat
  exponentBits : Nat
  deriving DecidableEq

def BinaryFormat.single : BinaryFormat := ⟨23, 8⟩

def BinaryFormat.double : BinaryFormat := ⟨52, 11⟩

/-- The nonnegative number `mantissa * 2 ^ exponent`. The gap to its lower neighbour is half as
wide as the one above if `narrowBelow` holds. -/
structure Binary where
  mantissa : Nat
  exponent : Int
  narrowBelow : Bool
  deriving DecidableEq

inductive Value
  | nan
  | infinite (negative : Bool)
  | finite (negative : Bool) (magnitude : Binary)
  deriving DecidableEq

def BinaryFormat.decode (f : BinaryFormat) (bits : Nat) : Value :=
  let fraction := bits % Nat.pow 2 f.fractionBits
  let field := bits / Nat.pow 2 f.fractionBits % Nat.pow 2 f.exponentBits
  let negative := bits / Nat.pow 2 (f.fractionBits + f.exponentBits) % 2 == 1
  let lowest : Int := 2 - Nat.pow 2 (f.exponentBits - 1) - f.fractionBits
  if field = Nat.pow 2 f.exponentBits - 1 then
    if fraction = 0 then .infinite negative else .nan
  else if field = 0 then .finite negative ⟨fraction, lowest, false⟩
  else .finite negative ⟨Nat.pow 2 f.fractionBits + fraction, lowest + (field - 1 : Nat),
    fraction = 0 && 1 < field⟩

structure Ratio where
  num : Nat
  den : Nat

/-- The fraction `n * base ^ e`. -/
def Ratio.scaled (n base : Nat) (e : Int) : Ratio := ⟨n * Nat.pow base e.toNat, Nat.pow base (-e).toNat⟩

def Ratio.le (a b : Ratio) : Bool := a.num * b.den ≤ b.num * a.den

def Ratio.lt (a b : Ratio) : Bool := a.num * b.den < b.num * a.den

namespace Binary

/-- Exact value in quarters of the last place. -/
def quarters (b : Binary) (n : Nat) : Ratio := .scaled n 2 (b.exponent - 2)

def value (b : Binary) : Ratio := b.quarters (4 * b.mantissa)

/-- A fraction reads back as `b` if it lies between the midpoints to the neighbours of `b`. The
midpoints themselves do if the mantissa is even. -/
def readsBack (b : Binary) (x : Ratio) : Bool :=
  let low := b.quarters (4 * b.mantissa - if b.narrowBelow then 1 else 2)
  let high := b.quarters (4 * b.mantissa + 2)
  if b.mantissa % 2 = 0 then low.le x && x.le high else low.lt x && x.lt high

end Binary

def value (d : Decimal) : Ratio := .scaled d.digits 10 d.exponent

def digitCount (n : Nat) : Nat := (Nat.toDigits 10 n).length

def Ratio.magnitude (x : Ratio) : Int :=
  let e : Int := digitCount x.num - digitCount x.den
  if (Ratio.scaled 1 10 e).le x then e else e - 1

/-- The multiples of `10 ^ e` next to a fraction: the greatest one not above it, and its
successor. -/
def Ratio.neighbours (x : Ratio) (e : Int) : Decimal × Decimal :=
  let unit := Ratio.scaled 1 10 e
  let floor := x.num * unit.den / (x.den * unit.num)
  (⟨floor, e⟩, ⟨floor + 1, e⟩)

/-- Whether `high` is at least as near to the fraction as `low` is, one unit further down. -/
def Ratio.nearerHigh (x : Ratio) (low high : Decimal) : Bool :=
  let sum : Ratio := .scaled (low.digits + high.digits) 10 low.exponent
  sum.le ⟨2 * x.num, x.den⟩

/-- The neighbour on the grid of `10 ^ e` that reads back: the nearer one if both do, the upper
one if they are equally near. -/
def Binary.onGrid? (b : Binary) (e : Int) : Option Decimal :=
  let (low, high) := b.value.neighbours e
  match b.readsBack low.value, b.readsBack high.value with
  | true, true => some (if b.value.nearerHigh low high then high else low)
  | true, false => some low
  | false, true => some high
  | false, false => none

def Binary.shortestWithin (b : Binary) : Nat → Int → Decimal
  | 0, e => (b.value.neighbours e).1
  | n + 1, e =>
    match b.onGrid? e with
    | some d => d
    | none => b.shortestWithin n (e - 1)

/-- The decimal with the fewest digits that reads back as `b`, and of those the nearest. Seventeen
digits are enough for every format in use. -/
def Binary.shortest (b : Binary) : Decimal := b.shortestWithin 17 b.value.magnitude

end Decimal

end Decompile
