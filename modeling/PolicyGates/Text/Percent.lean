import PolicyGates.Text.Quoted
/-!
# Percent escapes

A percent sign and two hexadecimal digits stand for a byte; all other characters stand for
their own bytes.  The bytes together have to be UTF-8.
-/
namespace PolicyGates.Text.Percent

/-- The bytes that a text stands for; none if a percent sign lacks its digits. -/
def bytes? : List Char → Option (List UInt8)
  | [] => some []
  | '%' :: a :: b :: r =>
    match Quoted.hexValue? a, Quoted.hexValue? b, bytes? r with
    | some x, some y, some rest => some (UInt8.ofNat (16 * x + y) :: rest)
    | _, _, _ => none
  | c :: r => if c = '%' then none else (bytes? r).map ((String.singleton c).toUTF8.toList ++ ·)

/-- The text with its escapes resolved. -/
def decode? (cs : List Char) : Option String :=
  (bytes? cs).bind (fun bs => String.fromUTF8? ⟨bs.toArray⟩)

end PolicyGates.Text.Percent
