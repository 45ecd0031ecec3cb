/-!
Splitting a text into lines. A line ends at a line feed or at the end of the text; a carriage
return belongs to the line end only where a line feed follows it.
-/

namespace LlvmBootstrap.Lines

/-- Without a last carriage return. -/
def chomp (cs : List Char) : List Char :=
  if cs.getLast? = some '\r' then cs.dropLast else cs

/-- `line` is what has been read of the current line, last character first. -/
def go (line : List Char) : List Char → List (List Char)
  | [] => if line.isEmpty then [] else [line.reverse]
  | '\n' :: cs => chomp line.reverse :: go [] cs
  | c :: cs => go (c :: line) cs

/-- The lines of a text. An empty piece after the last line feed is no line. -/
def split (cs : List Char) : List (List Char) := go [] cs

end LlvmBootstrap.Lines
