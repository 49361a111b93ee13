namespace Decompile.ModifiedUtf8

def isTail (b : UInt8) : Bool := b &&& 0xC0 == 0x80

/-- A two-byte form spells a unit below 0x800. The lead `C1` only stands before `80`. -/
def pair? (a b : UInt8) : Option UInt16 :=
  if a &&& 0xE0 == 0xC0 && isTail b && (a != 0xC1 || b == 0x80) then
    some ((a &&& 0x1F).toUInt16 <<< 6 ||| (b &&& 0x3F).toUInt16)
  else none

/-- A three-byte form spells any other unit, surrogates included. -/
def triple? (a b c : UInt8) : Option UInt16 :=
  if a &&& 0xF0 == 0xE0 && isTail b && isTail c && (a != 0xE0 || 0xA0 ≤ b) then
    some ((a &&& 0x0F).toUInt16 <<< 12 ||| (b &&& 0x3F).toUInt16 <<< 6 ||| (c &&& 0x3F).toUInt16)
  else none

/-- The 16-bit units that the bytes spell. The zero byte never occurs. -/
def decode : List UInt8 → Option (List UInt16)
  | [] => some []
  | a :: rest =>
    if a < 0x80 then
      if a = 0 then none else (decode rest).map (a.toUInt16 :: ·)
    else
      match rest with
      | [] => none
      | b :: rest =>
        match pair? a b with
        | some u => (decode rest).map (u :: ·)
        | none =>
          match rest with
          | [] => none
          | c :: rest =>
            match triple? a b c with
            | some u => (decode rest).map (u :: ·)
            | none => none

/-- Zero takes two bytes, so that no byte of the result is zero. -/
def encodeUnit (u : UInt16) : List UInt8 :=
  if u ≠ 0 ∧ u < 0x80 then [u.toUInt8]
  else if u < 0x800 then [(u >>> 6).toUInt8 ||| 0xC0, (u &&& 0x3F).toUInt8 ||| 0x80]
  else
    [(u >>> 12).toUInt8 ||| 0xE0, ((u >>> 6) &&& 0x3F).toUInt8 ||| 0x80,
      (u &&& 0x3F).toUInt8 ||| 0x80]

/-- A character past U+FFFF is a pair of surrogates. -/
def unitsOfChar (c : Char) : List UInt16 :=
  let n := c.toNat
  if n < 0x10000 then [n.toUInt16]
  else [(0xD800 + (n - 0x10000) / 0x400).toUInt16, (0xDC00 + (n - 0x10000) % 0x400).toUInt16]

def encode (s : String) : List UInt8 := (s.toList.flatMap unitsOfChar).flatMap encodeUnit

def isHighSurrogate (u : UInt16) : Bool := 0xD800 ≤ u && u < 0xDC00

def isLowSurrogate (u : UInt16) : Bool := 0xDC00 ≤ u && u < 0xE000

/-- A unit on its own. A lone surrogate reads as U+FFFD. -/
def charOfUnit (u : UInt16) : Char :=
  if isHighSurrogate u || isLowSurrogate u then Char.ofNat 0xFFFD else Char.ofNat u.toNat

def charOfPair (high low : UInt16) : Char :=
  Char.ofNat (0x10000 + (high.toNat - 0xD800) * 0x400 + (low.toNat - 0xDC00))

/-- The characters that the units spell, a surrogate pair giving one. -/
def chars : List UInt16 → List Char
  | [] => []
  | [u] => [charOfUnit u]
  | u :: v :: rest =>
    if isHighSurrogate u && isLowSurrogate v then charOfPair u v :: chars rest
    else charOfUnit u :: chars (v :: rest)

end Decompile.ModifiedUtf8
