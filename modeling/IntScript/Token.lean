import IntScript.Operator
import IntScript.Text.Decimal

/-!
# Tokens

The kinds of token, the reserved words, and the tokens themselves: a kind, the text it was read
from, and the byte offsets between which that text stands.
-/

namespace IntScript

/-- The reserved words.  None of them can be a name. -/
inductive Keyword where
  | global
  | define
  | «if»
  | «else»
  | «while»
  | «for»
  | «in»
  | «to»
  | println
  deriving DecidableEq, Repr

namespace Keyword

/-- The spelling of a reserved word. -/
def word : Keyword → String
  | global => "global"
  | define => "define"
  | «if» => "if"
  | «else» => "else"
  | «while» => "while"
  | «for» => "for"
  | «in» => "in"
  | «to» => "to"
  | println => "println"

/-- The class name under which a reserved word is listed. -/
def name : Keyword → String
  | global => "Global"
  | define => "Define"
  | «if» => "If"
  | «else» => "Else"
  | «while» => "While"
  | «for» => "For"
  | «in» => "In"
  | «to» => "To"
  | println => "Println"

/-- All reserved words. -/
def all : List Keyword :=
  [global, define, «if», «else», «while», «for», «in», «to», println]

/-- The reserved word with this spelling, if there is one. -/
def ofWord? (word : String) : Option Keyword :=
  all.find? fun keyword => keyword.word == word

end Keyword

/-- The kinds of token. -/
inductive TokenKind where
  /-- The end of the source. -/
  | eof
  | number
  | identifier
  | openBracket
  | closeBracket
  | openCurly
  | closeCurly
  | openParen
  | closeParen
  | assignment
  | semicolon
  | comma
  | operator (op : Operator)
  | keyword (word : Keyword)
  deriving DecidableEq, Repr

namespace TokenKind

/-- The class name under which an operator is listed. -/
def operatorName : Operator → String
  | .add => "Plus"
  | .subtract => "Dash"
  | .multiply => "Star"
  | .divide => "Slash"
  | .less => "Less"
  | .lessEquals => "LessEquals"
  | .greater => "Greater"
  | .greaterEquals => "GreaterEquals"
  | .equals => "Equals"
  | .notEquals => "NotEquals"

/-- The class name under which a kind of token is listed. -/
def name : TokenKind → String
  | eof => "EOF"
  | number => "Number"
  | identifier => "Identifier"
  | openBracket => "OpenBracket"
  | closeBracket => "CloseBracket"
  | openCurly => "OpenCurly"
  | closeCurly => "CloseCurly"
  | openParen => "OpenParen"
  | closeParen => "CloseParen"
  | assignment => "Assignment"
  | semicolon => "Semicolon"
  | comma => "Comma"
  | operator op => operatorName op
  | keyword word => word.name

end TokenKind

/-- A token of a source: what it is, its text, and where it starts and stops. -/
structure Token where
  kind : TokenKind
  text : String
  start : UInt32
  stop : UInt32
  deriving DecidableEq, Repr

namespace Token

/-- The token that stands for the end of a source. -/
def atEnd (offset : UInt32) : Token :=
  ⟨.eof, "EOF", offset, offset⟩

/-- How a token appears in a listing: its class, its text if the class does not determine it, and
where it starts. -/
def describe (token : Token) : String :=
  let place := " @" ++ Text.decimalNat token.start.toNat
  match token.kind with
  | .identifier | .number => token.kind.name ++ " (" ++ token.text ++ ")" ++ place
  | _ => token.kind.name ++ place

end Token

end IntScript
