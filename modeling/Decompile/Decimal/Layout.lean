import Decompile.Decimal.Shortest

namespace Decompile.Decimal

/-- How a decimal is written: positionally if its leading digit stands for a power of ten from
`least` to `greatest`, with an exponent otherwise. -/
structure Layout where
  least : Int
  greatest : Int

/-- Digits without trailing zeros, and the power of ten of the first. -/
def significant (d : Decimal) : List Char × Int :=
  let digits := Nat.toDigits 10 d.digits
  ((digits.reverse.dropWhile (· = '0')).reverse, d.exponent + digits.length - 1)

/-- Positional digits, with at least one on each side of the point. -/
def positional (digits : List Char) (power : Int) : List Char :=
  if power < 0 then '0' :: '.' :: List.replicate (-power - 1).toNat '0' ++ digits
  else
    let whole := power.toNat + 1
    let fraction := digits.drop whole
    digits.take whole ++ List.replicate (whole - digits.length) '0' ++ '.' ::
      if fraction.isEmpty then ['0'] else fraction

/-- One digit before the point, which is left out if none follow, then the power of ten. -/
def scientific (digits : List Char) (power : Int) : List Char :=
  let fraction := digits.drop 1
  digits.take 1 ++ (if fraction.isEmpty then [] else '.' :: fraction) ++
    'e' :: (toString power).toList

def Layout.write (l : Layout) (d : Decimal) : List Char :=
  if d.digits = 0 then ['0', '.', '0']
  else
    let (digits, power) := d.significant
    if l.least ≤ power ∧ power ≤ l.greatest then positional digits power
    else scientific digits power

def Layout.text (l : Layout) (f : BinaryFormat) (bits : Nat) : String :=
  let signed (negative : Bool) (text : List Char) : String :=
    String.ofList (if negative then '-' :: text else text)
  match f.decode bits with
  | .nan => "NaN"
  | .infinite negative => signed negative ['i', 'n', 'f']
  | .finite negative b => signed negative (l.write (if b.mantissa = 0 then ⟨0, 0⟩ else b.shortest))

end Decompile.Decimal
