import PolicyGates.Text.Units
/-!
# Texts

A text is a sequence of 16-bit units.  Nearly every text is made of characters and is kept as
a string; a text in which some surrogate stands alone is made of none and is kept as its
units.  Each text has one form only, so texts are equal exactly when their units are
(`units_injective`), and in particular no text with a lone surrogate equals one with U+FFFD
in that place.  Texts in a row have their units in a row (`units_append`), also where two lone
surrogates meet and become one character.
-/
namespace PolicyGates

namespace Text

/-- Units that are not those of a sequence of characters. -/
def isBroken (us : List Nat) : Bool := us.all (· < 0x10000) && hasLone us

end Text

inductive Text where
  | whole (s : String)
  | broken (units : List Nat) (isBroken : Text.isBroken units = true)
  deriving DecidableEq, Repr

namespace Text

instance : Inhabited Text := ⟨.whole ""⟩

instance : Coe String Text := ⟨.whole⟩

def units : Text → List Nat
  | .whole s => unitsOfChars s.toList
  | .broken us _ => us

def ofUnits (us : List Nat) : Text :=
  if h : isBroken us = true then .broken us h else .whole (String.ofList (charsOfUnits us))

/-- The text as a string, with U+FFFD for every surrogate that stands alone. -/
def plain : Text → String
  | .whole s => s
  | .broken us _ => String.ofList (charsOfUnits us)

def le (a b : Text) : Bool := unitsLE a.units b.units

def unitAt? (t : Text) (i : Nat) : Option Text := t.units[i]?.map (fun u => ofUnits [u])

/-- One text after the other.  A high surrogate at the end of the first and a low one at the start of
the second become one character. -/
def append : Text → Text → Text
  | .whole s, .whole t => .whole (s ++ t)
  | a, b => ofUnits (a.units ++ b.units)

instance : Append Text := ⟨append⟩

def intercalate (sep : Text) : List Text → Text
  | [] => .whole ""
  | [t] => t
  | t :: u :: r => t ++ (sep ++ intercalate sep (u :: r))

/-- The parts of a list of units that stand for one character each; a surrogate that stands alone is a part
of its own. -/
def splitUnits : List Nat → List (List Nat)
  | [] => []
  | [u] => [[u]]
  | u :: v :: r => if isPair u v then [u, v] :: splitUnits r else [u] :: splitUnits (v :: r)

/-- The characters of a text, each as a text; so is each surrogate that stands alone. -/
def characters (t : Text) : List Text := (splitUnits t.units).map ofUnits

/-- A text is found again from its units. -/
theorem ofUnits_units (t : Text) : ofUnits t.units = t := by
  cases t with
  | whole s => simp [ofUnits, units, isBroken, hasLone_unitsOfChars, charsOfUnits_unitsOfChars]
  | broken us h => simp [ofUnits, units, h]

theorem lt_of_mem_units {t : Text} {u : Nat} (h : u ∈ t.units) : u < 0x10000 := by
  cases t with
  | whole s => exact lt_of_mem_unitsOfChars h
  | broken us hb =>
    simp only [isBroken, Bool.and_eq_true, List.all_eq_true, decide_eq_true_eq] at hb
    exact hb.1 u h

/-- Units are found again from their text. -/
theorem units_ofUnits {us : List Nat} (h : ∀ u ∈ us, u < 0x10000) : (ofUnits us).units = us := by
  unfold ofUnits
  split
  · rfl
  · next hb =>
    have hs : hasLone us = false := by
      cases hl : hasLone us with
      | false => rfl
      | true => exact absurd (by simpa [isBroken, hl] using h) hb
    simp [units, unitsOfChars_charsOfUnits us h hs]

/-- A text is the string that it is written as, unless U+FFFD may stand for a surrogate in it. -/
theorem plain_eq_iff {t : Text} {s : String} (hs : '\uFFFD' ∉ s.toList) : t.plain = s ↔ t = .whole s := by
  refine ⟨fun h => ?_, fun h => h ▸ rfl⟩
  cases t with
  | whole s' => exact congrArg Text.whole h
  | broken us hb =>
    have hlone : hasLone us = true := (Bool.and_eq_true_iff.1 hb).2
    rw [plain] at h
    rw [← h, String.toList_ofList] at hs
    exact absurd (mem_charsOfUnits_of_hasLone hlone) hs

/-- The units of two texts in a row are those of the one and then those of the other. -/
theorem units_append (a b : Text) : (a ++ b).units = a.units ++ b.units := by
  have h : ∀ u ∈ a.units ++ b.units, u < 0x10000 := fun u hu =>
    (List.mem_append.1 hu).elim lt_of_mem_units lt_of_mem_units
  show (append a b).units = _
  unfold append
  split
  · simp [units, unitsOfChars]
  · exact units_ofUnits h

/-- Texts with the same units are the same. -/
theorem units_injective {a b : Text} (h : a.units = b.units) : a = b := by
  rw [← ofUnits_units a, h, ofUnits_units]

end Text

end PolicyGates
