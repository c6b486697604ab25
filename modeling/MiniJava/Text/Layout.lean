/-!
# Lines of text

A text of several lines is put under another by indenting each of its lines. A line ends with a line
feed, or with a carriage return and a line feed; what follows the last line feed is a line unless it
is empty.
-/

namespace MiniJava

/-- The lines of a text of which `begun`, reversed, is the begin of the first. -/
def splitLines (begun : List Char) : List Char → List (List Char)
  | [] => if begun.isEmpty then [] else [begun.reverse]
  | c :: cs =>
    if c = '\n' then
      let line := match begun with
        | '\r' :: before => before
        | _ => begun
      line.reverse :: splitLines [] cs
    else splitLines (c :: begun) cs

/-- The lines of a text. -/
def textLines (text : String) : List String := (splitLines [] text.toList).map String.ofList

/-- Lines one behind the other, each closed by a line feed. -/
def joinLines (lines : List String) : String := String.join (lines.map (· ++ "\n"))

end MiniJava
