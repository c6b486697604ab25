import MiniJava.Diagnostic
import MiniJava.Text.Layout

/-!
# Diagnostics for a terminal

`Diagnostic.render` (`Emitter::render`) writes a diagnostic on several lines: the message, an arrow
with the place, the notes, and the suggestions with the text to write. With a `Palette` of colours,
the severity, the stage, the message and the arrow are wrapped in terminal escape sequences; the
stage is wrapped even when there is none.
-/

namespace MiniJava

/-- How the parts of a rendered diagnostic are painted. -/
structure Palette where
  severity : Severity → String → String
  stage : String → String
  message : String → String
  arrow : String → String

namespace Palette

/-- No colours. -/
def plain : Palette := ⟨fun _ s => s, id, id, id⟩

/-- The escape sequence that ends every style of the terminal. -/
def reset : String := "\x1b[0m"

/-- Select a style of the terminal for a text, and reset it behind the text. A reset inside the text
is followed by the style again, so that the style holds to the end. -/
def paint (style text : String) : String :=
  let select := "\x1b[" ++ style ++ "m"
  select ++ text.replace reset (reset ++ select) ++ reset

/-- The terminal style of a severity: bold in red, yellow, blue or grey. -/
def severityStyle : Severity → String
  | .error => "1;31"
  | .warning => "1;33"
  | .info => "1;34"
  | .note => "1;90"

/-- The colours of a terminal. -/
def colored : Palette where
  severity s := paint (severityStyle s)
  stage := paint "90"
  message := paint "1"
  arrow := paint "1;34"

end Palette

namespace Diagnostic

/-- The place that a rendered diagnostic shows: file and position as far as they are known, else the
span. -/
def location? (d : Diagnostic) : Option String :=
  match d.file, d.position with
  | some file, some p => some (file ++ ":" ++ p.text)
  | some file, none => some file
  | none, some p => some p.text
  | none, none => d.span.map Span.text

/-- The lines of one suggestion. -/
def suggestionLines (s : Suggestion) : List String :=
  ("  = help: " ++ s.message) ::
    match s.replacement with
    | some text => ["        try: " ++ text]
    | none => []

/-- The lines of a rendered diagnostic. -/
def renderLines (palette : Palette) (d : Diagnostic) : List String :=
  let head := palette.severity d.severity d.severity.name ++ palette.stage d.stageTag ++ ": " ++
    palette.message d.message
  let place := match d.location? with
    | some l => ["  " ++ palette.arrow "-->" ++ " " ++ l]
    | none => []
  head :: place ++ d.notes.map ("  = note: " ++ ·) ++ d.suggestions.flatMap suggestionLines

/-- A diagnostic on lines of its own, each closed by a line feed. -/
def render (palette : Palette) (d : Diagnostic) : String :=
  joinLines (d.renderLines palette)

end Diagnostic

end MiniJava
