import ItemStore.Json.Numeral

/-!
# JSON tokens

A JSON text is a sequence of brackets, braces, colons, commas and scalars, between which white
space may stand. `Token.ofText?` cuts a text into its tokens, and fails at a character that
begins none, at an unfinished or ill-formed string, and at an ill-formed number. A string or a
number that is well formed and has no value is a token with its flaw.
-/

namespace ItemStore.Json

/-- A token of a JSON text. -/
inductive Token where
  | opening (c : Container)
  | closing (c : Container)
  | colon
  | comma
  | text (s : Except Flaw String)
  | scalar (v : Source)

namespace Token

/-- The value of a hexadecimal digit. -/
def hexValue? (c : Char) : Option Nat :=
  if c.isDigit then some (c.toNat - '0'.toNat)
  else if 'a' ≤ c ∧ c ≤ 'f' then some (c.toNat - 'a'.toNat + 10)
  else if 'A' ≤ c ∧ c ≤ 'F' then some (c.toNat - 'A'.toNat + 10)
  else none

/-- The value of four hexadecimal digits, with the text after them. -/
def hexFour? : List Char → Option (Nat × List Char)
  | a :: b :: c :: d :: rest => do
      let a ← hexValue? a
      let b ← hexValue? b
      let c ← hexValue? c
      let d ← hexValue? d
      some (((a * 16 + b) * 16 + c) * 16 + d, rest)
  | _ => none

/-- The character that an escape of one letter stands for. -/
def shortEscape? : Char → Option Char
  | '"' => some '"'
  | '\\' => some '\\'
  | '/' => some '/'
  | 'b' => some '\x08'
  | 'f' => some '\x0c'
  | 'n' => some '\n'
  | 'r' => some '\r'
  | 't' => some '\t'
  | _ => none

/-- A part of a string: a character, or a code unit given by its escape. -/
inductive Piece where
  | char (c : Char)
  | unit (n : Nat)

/-- Whether a code unit is the first half of a surrogate pair. -/
def isLeading (unit : Nat) : Bool := 0xD800 ≤ unit && unit ≤ 0xDBFF

/-- Whether a code unit is the second half of a surrogate pair. -/
def isTrailing (unit : Nat) : Bool := 0xDC00 ≤ unit && unit ≤ 0xDFFF

/-- The string of some parts. Two code units that make a surrogate pair are one character; the
first half without a pair is the flaw of the string. `done` holds the characters before, last
one first. -/
def joinPieces (done : List Char) : List Piece → Except Flaw String
  | [] => .ok (String.ofList done.reverse)
  | .char c :: rest => joinPieces (c :: done) rest
  | .unit n :: rest =>
      if isTrailing n then .error .loneSurrogate
      else if isLeading n then
        match rest with
        | .unit m :: rest =>
            if isTrailing m then
              joinPieces (Char.ofNat (0x10000 + (n - 0xD800) * 0x400 + (m - 0xDC00)) :: done) rest
            else .error .loneSurrogate
        | _ => .error .brokenPair
      else joinPieces (Char.ofNat n :: done) rest

/-- Read the rest of a string after its opening quote; `done` holds the parts read so far, last
one first. Each step takes at least one character off the text, so its length is enough fuel. -/
def readString (done : List Piece) : Nat → List Char → Option (List Piece × List Char)
  | 0, _ => none
  | fuel + 1, cs =>
      match cs with
      | [] => none
      | '"' :: rest => some (done.reverse, rest)
      | '\\' :: 'u' :: rest =>
          (hexFour? rest).bind fun (unit, rest) => readString (.unit unit :: done) fuel rest
      | '\\' :: e :: rest =>
          (shortEscape? e).bind fun c => readString (.char c :: done) fuel rest
      | c :: rest => if c.toNat < 0x20 then none else readString (.char c :: done) fuel rest

/-- White space between tokens. -/
def isSpace (c : Char) : Bool := c == ' ' || c == '\t' || c == '\n' || c == '\r'

/-- The characters that a number may hold. -/
def isNumberChar (c : Char) : Bool :=
  c.isDigit || c == '+' || c == '-' || c == '.' || c == 'e' || c == 'E'

/-- The value that a word stands for. -/
def ofWord? (word : String) : Option Source :=
  if word == "true" then some (.bool true)
  else if word == "false" then some (.bool false)
  else if word == "null" then some .null
  else none

/-- The token of a punctuation mark. -/
def ofMark? : Char → Option Token
  | '[' => some (opening .array)
  | ']' => some (closing .array)
  | '\x7b' => some (opening .object)
  | '\x7d' => some (closing .object)
  | ':' => some colon
  | ',' => some comma
  | _ => none

/-- Cut a text into tokens; `done` holds the tokens found so far, last one first. Each step
takes at least one character off the text, so its length is enough fuel, and what is left of the
fuel is enough for a string. -/
def scan (done : List Token) : Nat → List Char → Option (List Token)
  | 0, _ => none
  | _, [] => some done.reverse
  | fuel + 1, c :: rest =>
      if isSpace c then scan done fuel rest
      else match ofMark? c with
        | some t => scan (t :: done) fuel rest
        | none =>
            if c == '"' then
              match readString [] fuel rest with
              | none => none
              | some (pieces, rest) =>
                  scan (text (joinPieces [] pieces) :: done) fuel rest
            else if isNumberChar c then
              match Number.ofChars (c :: rest.takeWhile isNumberChar) with
              | none => none
              | some n => scan (scalar (.ofNumber n) :: done) fuel (rest.dropWhile isNumberChar)
            else if c.isLower then
              match ofWord? (String.ofList (c :: rest.takeWhile Char.isLower)) with
              | none => none
              | some v => scan (scalar v :: done) fuel (rest.dropWhile Char.isLower)
            else none

/-- The tokens of a text. -/
def ofText? (text : String) : Option (List Token) :=
  let cs := text.toList
  scan [] (cs.length + 1) cs

end Token

end ItemStore.Json
