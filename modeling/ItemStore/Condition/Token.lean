import ItemStore.Condition
import ItemStore.Text.Blank

/-!
# Tokens of conditions

The text of a condition is a sequence of words, parameters, comparisons and punctuation marks.
White space of the ASCII kind separates tokens and has no other meaning. A word is as long as
possible, and so is a comparison. `Token.ofText` returns the tokens followed by the end mark, or
the leftmost fault: a character that begins no token, with its byte offset, or a colon without a
name.
-/

namespace ItemStore

/-- A token of a condition. -/
inductive Token where
  | word (w : String)
  /-- A parameter, with its leading colon. -/
  | param (name : String)
  | comparison (op : Comparator)
  | leftParen
  | rightParen
  | comma
  | dot
  /-- The end of the text. -/
  | eof
deriving DecidableEq, Repr

namespace Token

/-- How a token is shown inside a message. -/
def display : Token → String
  | word w => "'" ++ w ++ "'"
  | param p => "'" ++ p ++ "'"
  | comparison op => "'" ++ op.text ++ "'"
  | leftParen => "'('"
  | rightParen => "')'"
  | comma => "','"
  | dot => "'.'"
  | eof => "end of expression"

/-- The text of a token; the end mark has none. -/
def text : Token → String
  | word w => w
  | param p => p
  | comparison op => op.text
  | leftParen => "("
  | rightParen => ")"
  | comma => ","
  | dot => "."
  | eof => ""

end Token

/-- What the reader of a condition expects at some place. -/
inductive Expectation where
  | parameterName
  | token (t : Token)
  | andKeyword
  | comparison
  | segment
  | operand
  | finish
deriving DecidableEq, Repr

namespace Expectation

def text : Expectation → String
  | parameterName => "parameter name after ':'"
  | token t => t.display
  | andKeyword => "AND"
  | comparison => "comparison operator or BETWEEN"
  | segment => "attribute name after '.'"
  | operand => "attribute name or parameter"
  | finish => "end of expression"

end Expectation

/-- Why an argument of a function cannot be used. -/
inductive OperandFault where
  /-- The first argument is no attribute path. -/
  | notPath
  /-- The argument is a path that leads nowhere in the item. -/
  | noValue (operand : Operand)
deriving DecidableEq, Repr

namespace OperandFault

def message : OperandFault → String
  | notPath => "first argument must be an attribute path"
  | noValue operand => operand.text ++ " does not resolve to a value"

end OperandFault

/-- Why a condition cannot be read or evaluated. -/
inductive ExpressionError where
  | unexpectedChar (found : Char) (offset : Nat)
  /-- Another token than expected; `none` when there is nothing at all. -/
  | unexpectedToken (expected : Expectation) (found : Option Token)
  | empty
  | arity (function : Function) (actual : Nat)
  | unresolvedValue (name : String)
  | invalidOperand (operation : Function) (fault : OperandFault)
deriving DecidableEq, Repr

namespace ExpressionError

def message : ExpressionError → String
  | unexpectedChar found offset =>
      "unexpected character '" ++ String.singleton found ++ "' at offset " ++ toString offset
  | unexpectedToken expected found =>
      "unexpected token: expected " ++ expected.text ++ ", found " ++
        (found.map Token.display).getD "nothing"
  | empty => "the expression can not be empty"
  | arity function actual =>
      function.name ++ " takes " ++ toString function.arity ++ " argument(s), got " ++
        toString actual
  | unresolvedValue name => "value " ++ name ++ " not found in expression attribute values"
  | invalidOperand operation fault =>
      "invalid operand for " ++ operation.name ++ ": " ++ fault.message

end ExpressionError

namespace Token

/-- The characters of words: ASCII letters and digits and the underscore. -/
def isWordChar (c : Char) : Bool := c.isAlphanum || c == '_'

/-- The number of bytes that the characters take up. -/
def byteCount : List Char → Nat
  | [] => 0
  | c :: cs => c.utf8Size + byteCount cs

/-- Cut a token off a text that begins with the character `c`, and return the rest of the text
with it. The text is the last part of a text of `total` bytes, which gives its offset. -/
def next (total : Nat) (c : Char) (rest : List Char) :
    Except ExpressionError (Token × List Char) :=
  if c == '(' then .ok (leftParen, rest)
  else if c == ')' then .ok (rightParen, rest)
  else if c == ',' then .ok (comma, rest)
  else if c == '.' then .ok (dot, rest)
  else if c == '=' then .ok (comparison .eq, rest)
  else if c == '<' then
    match rest with
    | '=' :: rest => .ok (comparison .le, rest)
    | '>' :: rest => .ok (comparison .ne, rest)
    | rest => .ok (comparison .lt, rest)
  else if c == '>' then
    match rest with
    | '=' :: rest => .ok (comparison .ge, rest)
    | rest => .ok (comparison .gt, rest)
  else if c == ':' then
    let name := rest.takeWhile isWordChar
    if name.isEmpty then .error (.unexpectedToken .parameterName none)
    else .ok (param (String.ofList (':' :: name)), rest.dropWhile isWordChar)
  else if isWordChar c then
    .ok (word (String.ofList (c :: rest.takeWhile isWordChar)), rest.dropWhile isWordChar)
  else .error (.unexpectedChar c (total - byteCount (c :: rest)))

/-- The tokens of a text of `total` bytes whose last part is given. Each step takes at least one
character off, so the length of the text is enough fuel. -/
def scan (total : Nat) : Nat → List Char → Except ExpressionError (List Token)
  | 0, _ => .ok [eof]
  | _, [] => .ok [eof]
  | fuel + 1, c :: rest =>
      if Text.isAsciiBlank c then scan total fuel rest
      else do
        let (t, rest') ← next total c rest
        let ts ← scan total fuel rest'
        .ok (t :: ts)

/-- The tokens of a text, followed by the end mark. -/
def ofText (text : String) : Except ExpressionError (List Token) :=
  let cs := text.toList
  scan (byteCount cs) cs.length cs

end Token

end ItemStore
