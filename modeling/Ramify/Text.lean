/-!
Rules on texts that are handed out: a log is read line by line, and a report ends where its wording
has a null character.
-/

namespace Ramify.Text

/-- Cuts a list of characters at its line breaks. There is always a last piece, which may be
empty. -/
def cutLines : List Char → List (List Char)
  | [] => [[]]
  | '\n' :: rest => [] :: cutLines rest
  | c :: rest =>
    match cutLines rest with
    | [] => [[c]]
    | line :: more => (c :: line) :: more

/-- The lines of a text, without their breaks. -/
def lines (text : String) : List String := (cutLines text.toList).map String.ofList

/-- The part of a text before its first null character. -/
def beforeNull (text : String) : String := String.ofList (text.toList.takeWhile (· != '\x00'))

end Ramify.Text
