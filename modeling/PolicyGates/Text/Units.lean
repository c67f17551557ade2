/-!
# Sixteen-bit units

A character below U+10000 is one 16-bit unit and any other is two surrogates, the high
one first.  Members of an object are ordered by the units of their keys, which differs from
the order by code points: U+FFFF comes after every character that needs two units.  A sequence of
units need not come from characters, since a surrogate may stand alone in it.
-/
namespace PolicyGates.Text

def unitsOf (c : Char) : List Nat :=
  if c.toNat < 0x10000 then [c.toNat]
  else [0xD800 + (c.toNat - 0x10000) / 0x400, 0xDC00 + (c.toNat - 0x10000) % 0x400]

def unitsOfChars (cs : List Char) : List Nat := cs.flatMap unitsOf

/-- The order of the dictionary on lists of units: a proper start comes first. -/
def unitsLE : List Nat → List Nat → Bool
  | [], _ => true
  | _ :: _, [] => false
  | a :: as, b :: bs => a < b || (a == b && unitsLE as bs)

def isHighSurrogate (u : Nat) : Bool := 0xD800 ≤ u && u < 0xDC00

def isLowSurrogate (u : Nat) : Bool := 0xDC00 ≤ u && u < 0xE000

def isSurrogate (u : Nat) : Bool := isHighSurrogate u || isLowSurrogate u

/-- A high surrogate and the low one after it, which together are one character. -/
def isPair (u v : Nat) : Bool := isHighSurrogate u && isLowSurrogate v

def charOfPair (u v : Nat) : Char := Char.ofNat (0x10000 + (u - 0xD800) * 0x400 + (v - 0xDC00))

/-- The character that a unit stands for by itself.  A surrogate is none and becomes U+FFFD. -/
def charOfUnit (u : Nat) : Char := if isSurrogate u then '\uFFFD' else Char.ofNat u

/-- The characters that units stand for, with U+FFFD for every surrogate that stands alone. -/
def charsOfUnits : List Nat → List Char
  | [] => []
  | [u] => [charOfUnit u]
  | u :: v :: r => if isPair u v then charOfPair u v :: charsOfUnits r else charOfUnit u :: charsOfUnits (v :: r)

def hasLone : List Nat → Bool
  | [] => false
  | [u] => isSurrogate u
  | u :: v :: r => if isPair u v then hasLone r else isSurrogate u || hasLone (v :: r)

/-! ## The order is total -/

theorem unitsLE_total (a b : List Nat) : (unitsLE a b || unitsLE b a) = true := by
  induction a generalizing b with
  | nil => simp [unitsLE]
  | cons x r ih =>
    cases b with
    | nil => simp [unitsLE]
    | cons y s =>
      have := ih s
      rcases Nat.lt_trichotomy x y with h | h | h
      · simp [unitsLE, h]
      · subst h; simpa [unitsLE] using this
      · simp [unitsLE, h]

theorem unitsLE_trans {a b c : List Nat} :
    unitsLE a b = true → unitsLE b c = true → unitsLE a c = true := by
  induction a generalizing b c with
  | nil => intros; rfl
  | cons x r ih =>
    cases b with
    | nil => simp [unitsLE]
    | cons y s =>
      cases c with
      | nil => simp [unitsLE]
      | cons z t =>
        simp only [unitsLE, Bool.or_eq_true, decide_eq_true_eq, Bool.and_eq_true, beq_iff_eq]
        rintro (h | ⟨rfl, h⟩) (h' | ⟨rfl, h'⟩)
        · exact .inl (Nat.lt_trans h h')
        · exact .inl h
        · exact .inl h'
        · exact .inr ⟨rfl, ih h h'⟩

theorem unitsLE_antisymm {a b : List Nat} (h : unitsLE a b = true) (h' : unitsLE b a = true) : a = b := by
  induction a generalizing b with
  | nil =>
    cases b with
    | nil => rfl
    | cons y s => cases h'
  | cons x r ih =>
    cases b with
    | nil => cases h
    | cons y s =>
      simp only [unitsLE, Bool.or_eq_true, decide_eq_true_eq, Bool.and_eq_true, beq_iff_eq] at h h'
      obtain ⟨rfl, hr⟩ := h.resolve_left (by omega)
      rw [ih hr (h'.resolve_left (Nat.lt_irrefl _)).2]

/-! ## Units and characters -/

theorem toNat_lt_of_char (c : Char) : c.toNat < 0xD800 ∨ (0xDFFF < c.toNat ∧ c.toNat < 0x110000) :=
  c.valid

/-- A number that is one of a character's is that of its own character. -/
theorem toNat_ofNat {n : Nat} (h : n.isValidChar) : (Char.ofNat n).toNat = n := by
  unfold Char.ofNat
  rw [dif_pos h]
  unfold Char.ofNatAux
  simp [Char.toNat]

theorem isHighSurrogate_toNat (c : Char) : isHighSurrogate c.toNat = false := by
  have := toNat_lt_of_char c
  simp [isHighSurrogate]; omega

theorem isLowSurrogate_toNat (c : Char) : isLowSurrogate c.toNat = false := by
  have := toNat_lt_of_char c
  simp [isLowSurrogate]; omega

theorem isSurrogate_toNat (c : Char) : isSurrogate c.toNat = false := by
  simp [isSurrogate, isHighSurrogate_toNat, isLowSurrogate_toNat]

/-- The two units of a character above U+FFFF are a pair. -/
theorem isPair_of_large {c : Char} (h : ¬c.toNat < 0x10000) :
    isPair (0xD800 + (c.toNat - 0x10000) / 0x400) (0xDC00 + (c.toNat - 0x10000) % 0x400) = true := by
  have := toNat_lt_of_char c
  simp [isPair, isHighSurrogate, isLowSurrogate]; omega

/-- That pair stands for the character. -/
theorem charOfPair_of_large {c : Char} (h : ¬c.toNat < 0x10000) :
    charOfPair (0xD800 + (c.toNat - 0x10000) / 0x400) (0xDC00 + (c.toNat - 0x10000) % 0x400) = c := by
  have hn : 0x10000 + (0xD800 + (c.toNat - 0x10000) / 0x400 - 0xD800) * 0x400
      + (0xDC00 + (c.toNat - 0x10000) % 0x400 - 0xDC00) = c.toNat := by omega
  rw [charOfPair, hn, Char.ofNat_toNat]

theorem charsOfUnits_toNat_cons (c : Char) (us : List Nat) :
    charsOfUnits (c.toNat :: us) = c :: charsOfUnits us := by
  cases us with
  | nil => simp [charsOfUnits, charOfUnit, isSurrogate_toNat]
  | cons v r => simp [charsOfUnits, charOfUnit, isPair, isSurrogate_toNat, isHighSurrogate_toNat]

theorem charsOfUnits_unitsOf_append (c : Char) (us : List Nat) :
    charsOfUnits (unitsOf c ++ us) = c :: charsOfUnits us := by
  by_cases h : c.toNat < 0x10000
  · simp only [unitsOf, h, if_true, List.singleton_append, charsOfUnits_toNat_cons]
  · simp only [unitsOf, h, if_false, List.cons_append, List.nil_append, charsOfUnits, isPair_of_large h, if_true,
      charOfPair_of_large h]

/-- Characters are found again from their units. -/
theorem charsOfUnits_unitsOfChars (cs : List Char) : charsOfUnits (unitsOfChars cs) = cs := by
  induction cs with
  | nil => rfl
  | cons c r ih => rw [unitsOfChars, List.flatMap_cons, charsOfUnits_unitsOf_append, ← unitsOfChars, ih]

theorem hasLone_unitsOf_append (c : Char) (us : List Nat) : hasLone (unitsOf c ++ us) = hasLone us := by
  by_cases h : c.toNat < 0x10000
  · simp only [unitsOf, h, if_true, List.singleton_append]
    cases us with
    | nil => simp [hasLone, isSurrogate_toNat]
    | cons v r => simp [hasLone, isPair, isSurrogate_toNat, isHighSurrogate_toNat]
  · simp only [unitsOf, h, if_false, List.cons_append, List.nil_append, hasLone, isPair_of_large h, if_true]

/-- No surrogate stands alone among the units of characters. -/
theorem hasLone_unitsOfChars (cs : List Char) : hasLone (unitsOfChars cs) = false := by
  induction cs with
  | nil => rfl
  | cons c r ih => rw [unitsOfChars, List.flatMap_cons, hasLone_unitsOf_append, ← unitsOfChars, ih]

/-! ## Characters from units -/

/-- The character that a unit stands for by itself has that unit. -/
theorem unitsOf_charOfUnit {u : Nat} (h : u < 0x10000) (hs : isSurrogate u = false) : unitsOf (charOfUnit u) = [u] := by
  have hv : u.isValidChar := by
    simp [isSurrogate, isHighSurrogate, isLowSurrogate] at hs
    simp only [Nat.isValidChar]; omega
  simp [charOfUnit, hs, unitsOf, toNat_ofNat hv, h]

/-- The character that a pair stands for has the pair as its units. -/
theorem unitsOf_charOfPair {u v : Nat} (h : isPair u v = true) : unitsOf (charOfPair u v) = [u, v] := by
  simp only [isPair, isHighSurrogate, isLowSurrogate, Bool.and_eq_true, decide_eq_true_eq] at h
  obtain ⟨⟨h₁, h₂⟩, h₃, h₄⟩ := h
  have hv : (0x10000 + (u - 0xD800) * 0x400 + (v - 0xDC00)).isValidChar := by
    simp only [Nat.isValidChar]; omega
  have hb : ¬ 0x10000 + (u - 0xD800) * 0x400 + (v - 0xDC00) < 0x10000 := by omega
  have hp : 0xD800 + (0x10000 + (u - 0xD800) * 0x400 + (v - 0xDC00) - 0x10000) / 0x400 = u := by omega
  have hq : 0xDC00 + (0x10000 + (u - 0xD800) * 0x400 + (v - 0xDC00) - 0x10000) % 0x400 = v := by omega
  simp only [charOfPair, unitsOf, toNat_ofNat hv, hb, if_false, hp, hq]

/-- Units among which no surrogate stands alone are found again from their characters. -/
theorem unitsOfChars_charsOfUnits (us : List Nat) (hl : ∀ u ∈ us, u < 0x10000) (hs : hasLone us = false) :
    unitsOfChars (charsOfUnits us) = us := by
  fun_induction charsOfUnits us with
  | case1 => rfl
  | case2 u =>
    simp only [hasLone] at hs
    simp [unitsOfChars, unitsOf_charOfUnit (hl u (by simp)) hs]
  | case3 u v r hp ih =>
    simp only [hasLone, hp, if_true] at hs
    rw [unitsOfChars, List.flatMap_cons, unitsOf_charOfPair hp, ← unitsOfChars,
      ih (fun w hw => hl w (by simp [hw])) hs]
    rfl
  | case4 u v r hp ih =>
    simp only [hasLone, hp, Bool.false_eq_true, if_false, Bool.or_eq_false_iff] at hs
    rw [unitsOfChars, List.flatMap_cons, unitsOf_charOfUnit (hl u (by simp)) hs.1, ← unitsOfChars,
      ih (fun w hw => hl w (by simp [List.mem_cons.1 hw])) hs.2]
    rfl

/-- A surrogate that stands alone leaves U+FFFD among the characters. -/
theorem mem_charsOfUnits_of_hasLone {us : List Nat} (h : hasLone us = true) : '\uFFFD' ∈ charsOfUnits us := by
  fun_induction charsOfUnits us with
  | case1 => cases h
  | case2 u =>
    rw [hasLone] at h
    simp [charOfUnit, h]
  | case3 u v r hp ih =>
    rw [hasLone, if_pos hp] at h
    exact List.mem_cons_of_mem _ (ih h)
  | case4 u v r hp ih =>
    rw [hasLone, if_neg hp, Bool.or_eq_true] at h
    rcases h with h | h
    · simp [charOfUnit, h]
    · exact List.mem_cons_of_mem _ (ih h)

/-- A character has units of sixteen bits. -/
theorem lt_of_mem_unitsOfChars {cs : List Char} {u : Nat} (h : u ∈ unitsOfChars cs) : u < 0x10000 := by
  obtain ⟨c, -, h⟩ := List.mem_flatMap.1 h
  have := toNat_lt_of_char c
  unfold unitsOf at h
  split at h
  · simp at h; omega
  · simp at h; omega

end PolicyGates.Text
