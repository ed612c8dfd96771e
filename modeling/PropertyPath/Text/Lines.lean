/-!
# The lines of a text

A line ends at a line feed, and a carriage return right before that line feed belongs to the ending.
A carriage return anywhere else is part of its line, and no empty line follows a final line feed.
-/
namespace PropertyPath.Text

/-- A line without the carriage return of its ending. -/
def chomp (line : List Char) : List Char :=
  if line.getLast? = some '\r' then line.dropLast else line

/-- The lines of `rest`, of which the first has begun with `line`. -/
def linesFrom (line : List Char) : List Char → List (List Char)
  | [] => if line.isEmpty then [] else [line]
  | c :: rest =>
      if c = '\n' then chomp line :: linesFrom [] rest else linesFrom (line ++ [c]) rest

def lines (s : String) : List String := (linesFrom [] s.toList).map String.ofList

/-- Every line of a text on a line of its own, two blanks further in, after what came before. -/
def indent (s : String) : String := String.join ((lines s).map ("\n  " ++ ·))

end PropertyPath.Text
