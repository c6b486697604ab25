import MiniJava.Diagnostic
import MiniJava.Grammar.Declaration

/-!
# Parsing

`parse` reads a raw tree from a text. If some piece of the text is no token, these pieces are the
errors, all of them, and the grammar is not tried. Otherwise there is at most one error: the
furthest failure.
-/

namespace MiniJava

/-- Why a text is no program. -/
inductive SyntaxError where
  | unknownToken (text : String) (span : Span)
  | unfit (failure : Failure)
deriving DecidableEq, Repr, Inhabited

namespace SyntaxError

/-- The bytes in question. -/
def span : SyntaxError → Span
  | unknownToken _ span => span
  | unfit failure => failure.span

/-- The message for a syntax error. -/
def message : SyntaxError → String
  | unknownToken text _ => "unrecognized token '" ++ text ++ "'"
  | unfit failure => failure.message

/-- The diagnostic for a syntax error: it points at bytes. -/
def toDiagnostic (e : SyntaxError) : Diagnostic :=
  { Diagnostic.error .syntactic e.message with span := some e.span }

end SyntaxError

/-- The program that a row of tokens spells, with offsets for positions. -/
def parseInput (s : Input) : Except Failure RawNode :=
  match Grammar.program s with
  | .ok tree _ _ => .ok tree
  | .error failure => .error failure

/-- The program that a text spells, with the positions of its nodes. -/
def parse (source : String) : Except (List SyntaxError) RawNode :=
  let text := source.toList
  let ps := pieces 0 text
  match unknownPieces ps with
  | [] =>
    match parseInput (.ofPieces (byteLength text) ps) with
    | .ok tree => .ok (tree.resolvePositions (.ofText text))
    | .error failure => .error [.unfit failure]
  | unknown => .error (unknown.map fun p => .unknownToken (String.ofList p.text) p.span)

end MiniJava
