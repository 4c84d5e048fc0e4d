import JsonFilter.Number.Layout
import JsonFilter.Text.Position
import JsonFilter.Text.Quoted

/-!
The tokens of the filter language, each with its spelling.
-/

namespace JsonFilter

/-- Operators and punctuation. -/
inductive Symbol where
  | alternative
  | equal
  | notEqual
  | atMost
  | atLeast
  | less
  | greater
  | plus
  | minus
  | times
  | slash
  | percent
  | pipe
  | comma
  | colon
  | semicolon
  | question
  | openParen
  | closeParen
  | openBracket
  | closeBracket
  | openBrace
  | closeBrace
  | dotDot
  | dot
  deriving DecidableEq

namespace Symbol

/-- The spelling of a symbol. -/
def text : Symbol → String
  | .alternative => "//"
  | .equal => "=="
  | .notEqual => "!="
  | .atMost => "<="
  | .atLeast => ">="
  | .less => "<"
  | .greater => ">"
  | .plus => "+"
  | .minus => "-"
  | .times => "*"
  | .slash => "/"
  | .percent => "%"
  | .pipe => "|"
  | .comma => ","
  | .colon => ":"
  | .semicolon => ";"
  | .question => "?"
  | .openParen => "("
  | .closeParen => ")"
  | .openBracket => "["
  | .closeBracket => "]"
  | .openBrace => "\x7b"
  | .closeBrace => "\x7d"
  | .dotDot => ".."
  | .dot => "."

/-- All symbols but the dot, a longer one before its own beginnings. -/
def all : List Symbol :=
  [.alternative, .equal, .notEqual, .atMost, .atLeast, .less, .greater, .plus, .minus, .times,
    .slash, .percent, .pipe, .comma, .colon, .semicolon, .question, .openParen, .closeParen,
    .openBracket, .closeBracket, .openBrace, .closeBrace, .dotDot]

end Symbol

/-- Words with a meaning of their own. -/
inductive Keyword where
  | andWord
  | asWord
  | catchWord
  | elifWord
  | elseWord
  | endWord
  | falseWord
  | ifWord
  | nullWord
  | orWord
  | thenWord
  | trueWord
  | tryWord
  deriving DecidableEq

namespace Keyword

/-- The spelling of a keyword. -/
def text : Keyword → String
  | .andWord => "and"
  | .asWord => "as"
  | .catchWord => "catch"
  | .elifWord => "elif"
  | .elseWord => "else"
  | .endWord => "end"
  | .falseWord => "false"
  | .ifWord => "if"
  | .nullWord => "null"
  | .orWord => "or"
  | .thenWord => "then"
  | .trueWord => "true"
  | .tryWord => "try"

def all : List Keyword :=
  [.andWord, .asWord, .catchWord, .elifWord, .elseWord, .endWord, .falseWord, .ifWord, .nullWord,
    .orWord, .thenWord, .trueWord, .tryWord]

/-- The keyword with a given spelling. -/
def ofText? (word : String) : Option Keyword := all.find? fun k => k.text == word

end Keyword

/-- What a token is. -/
inductive Token.Kind where
  | symbol (s : Symbol)
  | keyword (k : Keyword)
  | field (name : String)
  | binding (name : String)
  | number (n : Number)
  | string (s : String)
  | name (name : String)
  | finish
  deriving DecidableEq

/-- A token and where it stands. -/
structure Token where
  kind : Token.Kind
  range : Range
  deriving DecidableEq

namespace Token

/-- The token of a bare word: a keyword, or else a name. -/
def Kind.ofWord (word : String) : Kind :=
  match Keyword.ofText? word with
  | some k => .keyword k
  | none => .name word

/-- A token as messages show it. -/
def Kind.text : Kind → String
  | .symbol s => s.text
  | .keyword k => k.text
  | .field w => "." ++ w
  | .binding w => "$" ++ w
  | .number n => n.plain
  | .string s => Text.quoted s
  | .name w => w
  | .finish => ""

def isFinish (t : Token) : Bool := t.kind == .finish

/-- A token as the object of an expectation: the end has a name of its own. -/
def shown (t : Token) : String := if t.isFinish then "EOF" else t.kind.text

end Token

end JsonFilter
