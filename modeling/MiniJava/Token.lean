/-!
# Tokens

The words and signs of a program. `Token.text` is how a token is spelled in a program, and
`Token.describe` how a message refers to it: reserved words and signs in quotes, identifiers and
integers with a word in front.

An integer keeps the digits as they are written; whether they denote a 32-bit integer is decided
when the syntax tree is built (`Ast::from_raw`).
-/

namespace MiniJava

/-- The reserved words. -/
inductive Keyword where
  | importKw
  | classKw
  | extendsKw
  | publicKw
  | staticKw
  | ifKw
  | elseKw
  | whileKw
  | returnKw
  | newKw
  | thisKw
  | trueKw
  | falseKw
  | intKw
  | booleanKw
  | stringKw
  | voidKw
deriving DecidableEq, Repr, Inhabited

namespace Keyword

/-- The spelling of a reserved word. -/
def text : Keyword → String
  | importKw => "import"
  | classKw => "class"
  | extendsKw => "extends"
  | publicKw => "public"
  | staticKw => "static"
  | ifKw => "if"
  | elseKw => "else"
  | whileKw => "while"
  | returnKw => "return"
  | newKw => "new"
  | thisKw => "this"
  | trueKw => "true"
  | falseKw => "false"
  | intKw => "int"
  | booleanKw => "boolean"
  | stringKw => "String"
  | voidKw => "void"

/-- Every reserved word. -/
def all : List Keyword :=
  [importKw, classKw, extendsKw, publicKw, staticKw, ifKw, elseKw, whileKw, returnKw, newKw, thisKw,
    trueKw, falseKw, intKw, booleanKw, stringKw, voidKw]

/-- The reserved word of this spelling. -/
def ofText? (s : String) : Option Keyword := all.find? (·.text == s)

theorem ofText?_text (k : Keyword) : ofText? k.text = some k := by
  cases k <;> rfl

end Keyword

/-- The signs. -/
inductive Punct where
  | plus
  | minus
  | star
  | slash
  | assign
  | equal
  | notEqual
  | less
  | greater
  | lessEqual
  | greaterEqual
  | bang
  | andAnd
  | orOr
  | openParen
  | closeParen
  | openBrace
  | closeBrace
  | openBracket
  | closeBracket
  | comma
  | dot
  | ellipsis
  | semicolon
deriving DecidableEq, Repr, Inhabited

namespace Punct

/-- The spelling of a sign. -/
def text : Punct → String
  | plus => "+"
  | minus => "-"
  | star => "*"
  | slash => "/"
  | assign => "="
  | equal => "=="
  | notEqual => "!="
  | less => "<"
  | greater => ">"
  | lessEqual => "<="
  | greaterEqual => ">="
  | bang => "!"
  | andAnd => "&&"
  | orOr => "||"
  | openParen => "("
  | closeParen => ")"
  | openBrace => "\x7b"
  | closeBrace => "\x7d"
  | openBracket => "["
  | closeBracket => "]"
  | comma => ","
  | dot => "."
  | ellipsis => "..."
  | semicolon => ";"

/-- The longest sign that begins with `c` and goes on in `cs`, and how many characters of `cs` it
takes. -/
def read? (c : Char) (cs : List Char) : Option (Punct × Nat) :=
  match c, cs with
  | '=', '=' :: _ => some (equal, 1)
  | '=', _ => some (assign, 0)
  | '!', '=' :: _ => some (notEqual, 1)
  | '!', _ => some (bang, 0)
  | '<', '=' :: _ => some (lessEqual, 1)
  | '<', _ => some (less, 0)
  | '>', '=' :: _ => some (greaterEqual, 1)
  | '>', _ => some (greater, 0)
  | '&', '&' :: _ => some (andAnd, 1)
  | '|', '|' :: _ => some (orOr, 1)
  | '.', '.' :: '.' :: _ => some (ellipsis, 2)
  | '.', _ => some (dot, 0)
  | '+', _ => some (plus, 0)
  | '-', _ => some (minus, 0)
  | '*', _ => some (star, 0)
  | '/', _ => some (slash, 0)
  | '(', _ => some (openParen, 0)
  | ')', _ => some (closeParen, 0)
  | '\x7b', _ => some (openBrace, 0)
  | '\x7d', _ => some (closeBrace, 0)
  | '[', _ => some (openBracket, 0)
  | ']', _ => some (closeBracket, 0)
  | ',', _ => some (comma, 0)
  | ';', _ => some (semicolon, 0)
  | _, _ => none

end Punct

/-- A token of a program. -/
inductive Token where
  | keyword (k : Keyword)
  | punct (p : Punct)
  | ident (name : String)
  | integer (digits : String)
deriving DecidableEq, Repr, Inhabited

namespace Token

/-- The spelling of a token. -/
def text : Token → String
  | keyword k => k.text
  | punct p => p.text
  | ident name => name
  | integer digits => digits

/-- How a message refers to a token. -/
def describe : Token → String
  | keyword k => "'" ++ k.text ++ "'"
  | punct p => "'" ++ p.text ++ "'"
  | ident name => "identifier '" ++ name ++ "'"
  | integer digits => "integer '" ++ digits ++ "'"

/-- The token that a name spells: a reserved word, or else an identifier. -/
def ofName (name : String) : Token :=
  match Keyword.ofText? name with
  | some k => keyword k
  | none => ident name

end Token

end MiniJava
