/-!
# Lines

A line ends at a line feed, and a carriage return just before that line feed
belongs to the ending.  The ending of the last line may be missing, so a text
that closes with a line feed has no empty line after it.
-/

namespace PixelPipeline.Text

/-- The lines of a text, without their endings. -/
def lines : List Char → List (List Char)
  | [] => []
  | '\n' :: rest => [] :: lines rest
  | '\r' :: '\n' :: rest => [] :: lines rest
  | c :: rest =>
    match lines rest with
    | [] => [[c]]
    | line :: others => (c :: line) :: others

/-- The text of several lines, each ended by a line feed. -/
def ofLines (ls : List (List Char)) : List Char := ls.flatMap (· ++ ['\n'])

end PixelPipeline.Text
