/-!
# Blank characters

Which characters count as blank, and what is left of a text when the blank
characters at its two ends are taken off.  The class is a fixed list of code points:
tabs and line breaks, the Unicode space separators, the two Unicode line separators and
the byte-order mark.  The next-line control (0085), the Mongolian vowel separator (180E)
and the zero-width space (200B) are not blank.
-/
namespace PolicyGates.Text

/-- The blank code points, as closed ranges in ascending order. -/
def blankRanges : List (Nat × Nat) :=
  [(0x0009, 0x000D), (0x0020, 0x0020), (0x00A0, 0x00A0), (0x1680, 0x1680), (0x2000, 0x200A),
   (0x2028, 0x2029), (0x202F, 0x202F), (0x205F, 0x205F), (0x3000, 0x3000), (0xFEFF, 0xFEFF)]

def isBlank (c : Char) : Bool :=
  blankRanges.any (fun r => r.1 ≤ c.toNat && c.toNat ≤ r.2)

/-- Every character of the text is blank; so is the empty text. -/
def allBlank (s : String) : Bool := s.toList.all isBlank

/-- The text without the blank characters at its ends. -/
def trim (cs : List Char) : List Char :=
  ((cs.dropWhile isBlank).reverse.dropWhile isBlank).reverse

theorem dropWhile_isBlank_eq_nil (cs : List Char) :
    cs.dropWhile isBlank = [] ↔ cs.all isBlank = true := by
  induction cs with
  | nil => simp
  | cons c r ih => by_cases h : isBlank c = true <;> simp [h, ih]

theorem dropWhile_isBlank_append (cs : List Char) {c : Char} (h : isBlank c = false) :
    (cs ++ [c]).dropWhile isBlank ≠ [] := by
  rw [Ne, dropWhile_isBlank_eq_nil]
  simp [h]

/-- A trimmed text is empty exactly when there was nothing but blanks. -/
theorem trim_eq_nil_iff (cs : List Char) : trim cs = [] ↔ cs.all isBlank = true := by
  induction cs with
  | nil => simp [trim]
  | cons c r ih =>
    cases h : isBlank c with
    | true => simpa [trim, List.dropWhile_cons, h] using ih
    | false =>
      have := dropWhile_isBlank_append r.reverse h
      simp [trim, h, this]

end PolicyGates.Text
