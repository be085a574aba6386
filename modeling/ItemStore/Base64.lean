/-!
# Base64

Binary data is exchanged as text in the standard alphabet, four characters for three bytes, and
the last group is padded with `=`. Reading is strict: the padding must be there and the bits
that padding leaves over must be zero, so each byte string has exactly one written form. A
failure names the offending byte and its offset in the text.
-/

namespace ItemStore.Base64

/-- Why a text is not the written form of a byte string. -/
inductive Error where
  | invalidSymbol (byte : UInt8) (offset : Nat)
  | invalidLength (length : Nat)
  | invalidPadding
  | invalidLastSymbol (byte : UInt8) (offset : Nat)
deriving DecidableEq

namespace Error

def message : Error → String
  | invalidSymbol byte offset => s!"Invalid symbol {byte}, offset {offset}."
  | invalidLength length => s!"Invalid input length: {length}"
  | invalidPadding => "Invalid padding"
  | invalidLastSymbol byte offset => s!"Invalid last symbol {byte}, offset {offset}."

end Error

/-- The padding byte, the code of `=`. -/
def pad : UInt8 := 61

/-- The byte that stands for a number below 64: capitals, small letters, digits, `+`, `/`. -/
def symbol (n : Nat) : UInt8 :=
  if n < 26 then UInt8.ofNat (65 + n)
  else if n < 52 then UInt8.ofNat (97 + (n - 26))
  else if n < 62 then UInt8.ofNat (48 + (n - 52))
  else if n = 62 then 43
  else 47

/-- The number that a byte of the alphabet stands for. -/
def value? (byte : UInt8) : Option Nat :=
  let n := byte.toNat
  if 65 ≤ n ∧ n ≤ 90 then some (n - 65)
  else if 97 ≤ n ∧ n ≤ 122 then some (n - 97 + 26)
  else if 48 ≤ n ∧ n ≤ 57 then some (n - 48 + 52)
  else if n = 43 then some 62
  else if n = 47 then some 63
  else none

/-- The written form as bytes, three bytes at a time. -/
def encodeBytes : List UInt8 → List UInt8
  | [] => []
  | [a] =>
      let n := a.toNat * 16
      [symbol (n / 64), symbol (n % 64), pad, pad]
  | [a, b] =>
      let n := (a.toNat * 256 + b.toNat) * 4
      [symbol (n / 4096), symbol (n / 64 % 64), symbol (n % 64), pad]
  | a :: b :: c :: rest =>
      let n := (a.toNat * 256 + b.toNat) * 256 + c.toNat
      symbol (n / 262144) :: symbol (n / 4096 % 64) :: symbol (n / 64 % 64) :: symbol (n % 64) ::
        encodeBytes rest

/-- The written form. -/
def encode (bytes : List UInt8) : String :=
  String.ofList ((encodeBytes bytes).map fun b => Char.ofNat b.toNat)

/-- Read a symbol at an offset. -/
def readSymbol (byte : UInt8) (offset : Nat) : Except Error Nat :=
  match value? byte with
  | some n => .ok n
  | none => .error (.invalidSymbol byte offset)

/-- What has been read of the last group: its symbols with their offsets, and the offset of the
first padding byte with the count of padding bytes. -/
structure LastGroup where
  symbols : List (UInt8 × Nat × Nat) := []
  padding : Option (Nat × Nat) := none

/-- Read the next byte of the last group, which stands at the given index in it. -/
def LastGroup.push (g : LastGroup) (index : Nat) (byte : UInt8) (offset : Nat) :
    Except Error LastGroup :=
  if byte = pad then
    if index < 2 then .error (.invalidSymbol byte offset)
    else match g.padding with
      | none => .ok { g with padding := some (offset, 1) }
      | some (first, count) => .ok { g with padding := some (first, count + 1) }
  else match g.padding with
    | some (first, _) => .error (.invalidSymbol pad first)
    | none => do
        let n ← readSymbol byte offset
        .ok { g with symbols := g.symbols ++ [(byte, offset, n)] }

/-- Read the bytes of the last group from the given index on. -/
def readLastGroup (start : Nat) : LastGroup → Nat → List UInt8 → Except Error LastGroup
  | g, _, [] => .ok g
  | g, index, byte :: rest => do
      let g ← g.push index byte (start + index)
      readLastGroup start g (index + 1) rest

/-- The bytes of a last group of two to four symbols; leftover bits must be zero. -/
def LastGroup.bytes (g : LastGroup) (start : Nat) : Except Error (List UInt8) :=
  let padding := (g.padding.map (·.2)).getD 0
  if g.symbols.length < 2 then .error (.invalidLength (start + g.symbols.length))
  else if g.symbols.length + padding ≠ 4 then .error .invalidPadding
  else match g.symbols with
    | [(_, _, a), (byte, offset, b)] =>
        if b % 16 ≠ 0 then .error (.invalidLastSymbol byte offset)
        else .ok [UInt8.ofNat (a * 4 + b / 16)]
    | [(_, _, a), (_, _, b), (byte, offset, c)] =>
        if c % 4 ≠ 0 then .error (.invalidLastSymbol byte offset)
        else .ok [UInt8.ofNat (a * 4 + b / 16), UInt8.ofNat (b % 16 * 16 + c / 4)]
    | [(_, _, a), (_, _, b), (_, _, c), (_, _, d)] =>
        .ok [UInt8.ofNat (a * 4 + b / 16), UInt8.ofNat (b % 16 * 16 + c / 4),
          UInt8.ofNat (c % 4 * 64 + d)]
    | _ => .error .invalidPadding

/-- Read a text from an offset on, a full group at a time while more follows. -/
def decodeFrom (start : Nat) : List UInt8 → Except Error (List UInt8)
  | [] => .ok []
  | w :: x :: y :: z :: next :: rest => do
      let a ← readSymbol w start
      let b ← readSymbol x (start + 1)
      let c ← readSymbol y (start + 2)
      let d ← readSymbol z (start + 3)
      let bytes ← decodeFrom (start + 4) (next :: rest)
      .ok (UInt8.ofNat (a * 4 + b / 16) :: UInt8.ofNat (b % 16 * 16 + c / 4) ::
        UInt8.ofNat (c % 4 * 64 + d) :: bytes)
  | group => do
      let g ← readLastGroup start {} 0 group
      g.bytes start

/-- Read a written form given as bytes. A text one byte longer than whole groups is refused for
that byte first, unless the byte is a symbol or padding. -/
def decodeBytes (text : List UInt8) : Except Error (List UInt8) :=
  match text.getLast? with
  | some byte =>
      if text.length % 4 = 1 ∧ byte ≠ pad ∧ value? byte = none then
        .error (.invalidSymbol byte (text.length - 1))
      else decodeFrom 0 text
  | none => .ok []

/-- Read a written form. -/
def decode (text : String) : Except Error (List UInt8) := decodeBytes text.toUTF8.data.toList

end ItemStore.Base64
