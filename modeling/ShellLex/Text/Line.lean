/-!
Text as lines. A line ends with a line feed, before which one carriage return is dropped; what
follows the last line feed is a line only if it is not empty, and keeps its carriage return.
-/
namespace ShellLex.Text

def dropReturn (line : List Char) : List Char :=
  if line.getLast? = some '\r' then line.dropLast else line

/-- The lines of `text`, where `line` holds the current one in reverse. -/
def linesFrom (line : List Char) : List Char → List (List Char)
  | [] => if line.isEmpty then [] else [line.reverse]
  | c :: text =>
    if c = '\n' then dropReturn line.reverse :: linesFrom [] text else linesFrom (c :: line) text

def lines (text : List Char) : List (List Char) := linesFrom [] text

end ShellLex.Text
