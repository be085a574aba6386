import ItemStore.Condition.Token

/-!
# Reading conditions

Conditions are read by recursive descent over their tokens:

    or       := and (OR and)*
    and      := not (AND not)*
    not      := NOT not | primary
    primary  := ( or ) | function ( operand (, operand)* )
              | operand comparison operand
              | operand BETWEEN operand AND operand
    operand  := parameter | word (. word)*

Each reader returns what it has read, and the tokens after it. Keywords and function names are
read in any letter case, and a keyword cannot begin a path. A word that names a function is one
only before a parenthesis. The number of arguments is checked when the call has been read.
-/

namespace ItemStore

namespace Token

/-- The first token; past the end of the list the end mark goes on for ever. -/
def peek (ts : List Token) : Token := ts.headD eof

/-- A word in small letters. -/
def lowercase (w : String) : String := String.ofList (w.toList.map Char.toLower)

/-- Whether the token is the keyword, in any letter case. -/
def isKeyword (keyword : String) : Token → Bool
  | word w => lowercase w == keyword
  | _ => false

/-- The words that cannot begin a path. -/
def keywords : List String := ["and", "or", "not", "between"]

/-- Whether the word is a keyword, in any letter case. -/
def isReserved (w : String) : Bool := keywords.contains (lowercase w)

end Token

/-- The function with a name, in any letter case. -/
def Function.ofName? (w : String) : Option Function :=
  Function.all.find? fun f => f.name == Token.lowercase w

namespace Condition

open Token (peek isKeyword isReserved)

/-- Fail at the first token. -/
def unexpected {α : Type} (expected : Expectation) (ts : List Token) : Except ExpressionError α :=
  .error (.unexpectedToken expected (some (peek ts)))

/-- Take one token. -/
def expect (t : Token) (ts : List Token) : Except ExpressionError (List Token) :=
  if peek ts = t then .ok ts.tail else unexpected (.token t) ts

/-- Read the further segments of a path; `done` holds the segments read, last one first. -/
def parseSegments (done : List String) : List Token → Except ExpressionError (Operand × List Token)
  | .dot :: .word w :: ts => parseSegments (w :: done) ts
  | .dot :: ts => unexpected .segment ts
  | ts => .ok (.path done.reverse, ts)

/-- Read an operand. -/
def parseOperand (ts : List Token) : Except ExpressionError (Operand × List Token) :=
  match ts with
  | .param name :: rest => .ok (.param name, rest)
  | .word w :: rest =>
      if isReserved w then unexpected .operand ts else parseSegments [w] rest
  | _ => unexpected .operand ts

/-- Read the further arguments of a call, each after a comma; `done` holds the arguments read,
last one first. -/
def parseArguments (done : List Operand) :
    Nat → List Token → Except ExpressionError (List Operand × List Token)
  | 0, ts => .ok (done.reverse, ts)
  | fuel + 1, .comma :: ts => do
      let (arg, ts) ← parseOperand ts
      parseArguments (arg :: done) fuel ts
  | _, ts => .ok (done.reverse, ts)

/-- Read a call whose name has been read. Each argument takes a token, so there are enough
tokens to serve as fuel. -/
def parseCall (f : Function) (ts : List Token) :
    Except ExpressionError (Condition × List Token) := do
  let ts ← expect .leftParen ts
  let (first, ts) ← parseOperand ts
  let (args, ts) ← parseArguments [first] ts.length ts
  let ts ← expect .rightParen ts
  if args.length = f.arity then .ok (.call f args, ts)
  else .error (.arity f args.length)

/-- Read a comparison or a range. -/
def parseComparison (ts : List Token) : Except ExpressionError (Condition × List Token) := do
  let (left, ts) ← parseOperand ts
  if isKeyword "between" (peek ts) then
    let (low, ts) ← parseOperand ts.tail
    if isKeyword "and" (peek ts) then
      let (high, ts) ← parseOperand ts.tail
      .ok (.between left low high, ts)
    else unexpected .andKeyword ts
  else match peek ts with
    | .comparison op => do
        let (right, ts) ← parseOperand ts.tail
        .ok (.compare left op right, ts)
    | _ => unexpected .comparison ts

/-- The function that is called where the tokens begin. -/
def calledFunction? : List Token → Option Function
  | .word w :: .leftParen :: _ => Function.ofName? w
  | _ => none

mutual

/-- Read a condition. -/
def parseOr : Nat → List Token → Except ExpressionError (Condition × List Token)
  | 0, _ => .error .empty
  | fuel + 1, ts => do
      let (left, ts) ← parseAnd fuel ts
      parseOrRest fuel left ts

/-- Read the further parts of a disjunction. -/
def parseOrRest : Nat → Condition → List Token → Except ExpressionError (Condition × List Token)
  | 0, _, _ => .error .empty
  | fuel + 1, left, ts =>
      if isKeyword "or" (peek ts) then do
        let (right, ts) ← parseAnd fuel ts.tail
        parseOrRest fuel (.or left right) ts
      else .ok (left, ts)

/-- Read a conjunction. -/
def parseAnd : Nat → List Token → Except ExpressionError (Condition × List Token)
  | 0, _ => .error .empty
  | fuel + 1, ts => do
      let (left, ts) ← parseNot fuel ts
      parseAndRest fuel left ts

/-- Read the further parts of a conjunction. -/
def parseAndRest : Nat → Condition → List Token → Except ExpressionError (Condition × List Token)
  | 0, _, _ => .error .empty
  | fuel + 1, left, ts =>
      if isKeyword "and" (peek ts) then do
        let (right, ts) ← parseNot fuel ts.tail
        parseAndRest fuel (.and left right) ts
      else .ok (left, ts)

/-- Read a negation. -/
def parseNot : Nat → List Token → Except ExpressionError (Condition × List Token)
  | 0, _ => .error .empty
  | fuel + 1, ts =>
      if isKeyword "not" (peek ts) then do
        let (inner, ts) ← parseNot fuel ts.tail
        .ok (.not inner, ts)
      else parsePrimary fuel ts

/-- Read a condition in parentheses, a call, a comparison or a range. -/
def parsePrimary : Nat → List Token → Except ExpressionError (Condition × List Token)
  | 0, _ => .error .empty
  | fuel + 1, ts =>
      if peek ts = .leftParen then do
        let (inner, ts) ← parseOr fuel ts.tail
        let ts ← expect .rightParen ts
        .ok (inner, ts)
      else match calledFunction? ts with
        | some f => parseCall f ts.tail
        | none => parseComparison ts

end

/-- Fuel that no reading of so many tokens uses up: between two tokens at most six readers are
entered. -/
def enoughFuel (ts : List Token) : Nat := 8 * (ts.length + 1)

/-- Read a condition that takes up all tokens. -/
def ofTokens (ts : List Token) : Except ExpressionError Condition := do
  let (c, rest) ← parseOr (enoughFuel ts) ts
  if peek rest = .eof then .ok c else unexpected .finish rest

/-- Read a condition from its text. -/
def ofText (text : String) : Except ExpressionError Condition :=
  if Text.allBlank text then .error .empty
  else do
    let ts ← Token.ofText text
    ofTokens ts

end Condition

end ItemStore
