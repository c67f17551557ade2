/-!
# Pieces

A text cut at every occurrence of a character.  There is one piece more than there are cuts,
so the empty text is one empty piece.
-/
namespace PolicyGates.Text

def pieces (sep : Char) : List Char → List (List Char)
  | [] => [[]]
  | c :: r =>
    if c = sep then [] :: pieces sep r
    else
      match pieces sep r with
      | [] => [[c]]
      | p :: ps => (c :: p) :: ps

/-- The text up to the first occurrence of a character, and what comes after that. -/
def cutAt (sep : Char) (cs : List Char) : List Char × List Char :=
  (cs.takeWhile (· ≠ sep), (cs.dropWhile (· ≠ sep)).drop 1)

end PolicyGates.Text
