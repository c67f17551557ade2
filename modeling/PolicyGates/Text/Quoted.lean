import PolicyGates.Text.Basic
/-!
# Quoted texts

A text in double quotes.  Writing escapes the quote, the backslash, the controls below U+0020 and
every surrogate that stands alone, and leaves all other characters as they are; reading also
accepts the escapes that writing never uses, among them `\/` and the four-digit form of any
unit.  Main statement: `decode_encode`, reading takes back what writing made.
-/
namespace PolicyGates.Text.Quoted

def hexDigit (n : Nat) : Char :=
  if n < 10 then Char.ofNat (0x30 + n) else Char.ofNat (0x57 + n)

/-- The escaped form of a character inside quotes. -/
def encodeChar (c : Char) : List Char :=
  if c = '"' then ['\\', '"']
  else if c = '\\' then ['\\', '\\']
  else if c = '\x08' then ['\\', 'b']
  else if c = '\x09' then ['\\', 't']
  else if c = '\x0a' then ['\\', 'n']
  else if c = '\x0c' then ['\\', 'f']
  else if c = '\x0d' then ['\\', 'r']
  else if c.toNat < 0x20 then
    ['\\', 'u', '0', '0', hexDigit (c.toNat / 16), hexDigit (c.toNat % 16)]
  else [c]

/-- The escaped form of a surrogate that stands alone. -/
def encodeSurrogate (u : Nat) : List Char :=
  ['\\', 'u', hexDigit (u / 4096), hexDigit (u / 256 % 16), hexDigit (u / 16 % 16), hexDigit (u % 16)]

/-- The escaped form of a unit that is no half of a pair. -/
def encodeUnit (u : Nat) : List Char := if isSurrogate u then encodeSurrogate u else encodeChar (Char.ofNat u)

/-- The escaped form of units; a pair of surrogates is written as the character it stands for. -/
def encodeUnits : List Nat → List Char
  | [] => []
  | [u] => encodeUnit u
  | u :: v :: r =>
    if isPair u v then charOfPair u v :: encodeUnits r else encodeUnit u ++ encodeUnits (v :: r)

/-- The text between its quotes. -/
def body : Text → List Char
  | .whole s => s.toList.flatMap encodeChar
  | .broken us _ => encodeUnits us

def encode (t : Text) : List Char := '"' :: (body t ++ ['"'])

/-- What a hexadecimal digit of either case stands for. -/
def hexValue? (c : Char) : Option Nat :=
  if '0' ≤ c ∧ c ≤ '9' then some (c.toNat - 0x30)
  else if 'a' ≤ c ∧ c ≤ 'f' then some (c.toNat - 0x57)
  else if 'A' ≤ c ∧ c ≤ 'F' then some (c.toNat - 0x37)
  else none

/-- The unit written by four hexadecimal digits. -/
def hexUnit? (a b c d : Char) : Option Nat := do
  return (← hexValue? a) * 4096 + (← hexValue? b) * 256 + (← hexValue? c) * 16 + (← hexValue? d)

/-- The unit that a one-letter escape stands for. -/
def escaped? (c : Char) : Option Nat :=
  if c = '"' then some 0x22
  else if c = '\\' then some 0x5C
  else if c = '/' then some 0x2F
  else if c = 'b' then some 0x08
  else if c = 'f' then some 0x0C
  else if c = 'n' then some 0x0A
  else if c = 'r' then some 0x0D
  else if c = 't' then some 0x09
  else none

/-- The units up to the closing quote, put before `seen`, which holds the units read so far
with the last one first; and what follows the quote. -/
def decodeUnits (seen : List Nat) : List Char → Option (List Nat × List Char)
  | [] => none
  | '"' :: r => some (seen.reverse, r)
  | '\\' :: 'u' :: a :: b :: c :: d :: r =>
    match hexUnit? a b c d with
    | some u => decodeUnits (u :: seen) r
    | none => none
  | '\\' :: e :: r =>
    match escaped? e with
    | some u => decodeUnits (u :: seen) r
    | none => none
  | c :: r =>
    if c = '\\' ∨ c.toNat < 0x20 then none
    else decodeUnits ((unitsOf c).reverse ++ seen) r

/-- Reads on after the opening quote: the text, and what follows the closing quote. -/
def decode (cs : List Char) : Option (Text × List Char) :=
  (decodeUnits [] cs).map (fun p => (Text.ofUnits p.1, p.2))

/-! ## Reading what was written -/

theorem hexUnit?_control {n : Nat} (h : n < 0x20) :
    hexUnit? '0' '0' (hexDigit (n / 16)) (hexDigit (n % 16)) = some n := by
  revert h; revert n; decide

theorem hexValue?_hexDigit {n : Nat} (h : n < 16) : hexValue? (hexDigit n) = some n := by
  revert h; revert n; decide

/-- Four hexadecimal digits are enough for a unit. -/
theorem hexUnit?_hexDigit {u : Nat} (h : u < 0x10000) :
    hexUnit? (hexDigit (u / 4096)) (hexDigit (u / 256 % 16)) (hexDigit (u / 16 % 16)) (hexDigit (u % 16)) = some u := by
  have h₁ : u / 4096 < 16 := by omega
  have h₂ : u / 256 % 16 < 16 := by omega
  have h₃ : u / 16 % 16 < 16 := by omega
  have h₄ : u % 16 < 16 := by omega
  have hu : u / 4096 * 4096 + u / 256 % 16 * 256 + u / 16 % 16 * 16 + u % 16 = u := by omega
  simp [hexUnit?, hexValue?_hexDigit h₁, hexValue?_hexDigit h₂, hexValue?_hexDigit h₃,
    hexValue?_hexDigit h₄, hu]

theorem decodeUnits_cons {c : Char} (hq : c ≠ '"') (hb : c ≠ '\\') (hl : ¬c.toNat < 0x20) (seen : List Nat)
    (rest : List Char) : decodeUnits seen (c :: rest) = decodeUnits ((unitsOf c).reverse ++ seen) rest := by
  rw [decodeUnits.eq_def]
  split
  · next h => cases h
  · next h => exact absurd (List.cons.inj h).1 hq
  · next h => exact absurd (List.cons.inj h).1 hb
  · next h => exact absurd (List.cons.inj h).1 hb
  · next h =>
    obtain ⟨rfl, rfl⟩ := List.cons.inj h
    rw [if_neg (by simp [hb, hl])]

theorem decodeUnits_encodeChar (c : Char) (seen : List Nat) (rest : List Char) :
    decodeUnits seen (encodeChar c ++ rest) = decodeUnits ((unitsOf c).reverse ++ seen) rest := by
  unfold encodeChar
  split
  · next h => subst h; rfl
  split
  · next h => subst h; rfl
  split
  · next h => subst h; rfl
  split
  · next h => subst h; rfl
  split
  · next h => subst h; rfl
  split
  · next h => subst h; rfl
  split
  · next h => subst h; rfl
  split
  · next h =>
    have hu : unitsOf c = [c.toNat] := by simp only [unitsOf]; rw [if_pos (by omega)]
    simp only [List.cons_append, List.nil_append, decodeUnits, hexUnit?_control h, hu, List.reverse_singleton]
  · next hq hb _ _ _ _ _ hc => exact decodeUnits_cons hq hb hc seen rest

theorem decodeUnits_encodeChars (cs : List Char) (seen : List Nat) (rest : List Char) :
    decodeUnits seen (cs.flatMap encodeChar ++ '"' :: rest)
      = some (seen.reverse ++ unitsOfChars cs, rest) := by
  induction cs generalizing seen with
  | nil => simp [decodeUnits, unitsOfChars]
  | cons c r ih =>
    rw [List.flatMap_cons, List.append_assoc, decodeUnits_encodeChar, ih]
    simp [unitsOfChars]

theorem decodeUnits_encodeUnit {u : Nat} (h : u < 0x10000) (seen : List Nat) (rest : List Char) :
    decodeUnits seen (encodeUnit u ++ rest) = decodeUnits (u :: seen) rest := by
  unfold encodeUnit
  split
  · simp only [encodeSurrogate, List.cons_append, List.nil_append, decodeUnits, hexUnit?_hexDigit h]
  · next hs =>
    have hv : u.isValidChar := by
      simp [isSurrogate, isHighSurrogate, isLowSurrogate] at hs
      simp only [Nat.isValidChar]; omega
    rw [decodeUnits_encodeChar]
    simp [unitsOf, toNat_ofNat hv, h]

/-- The character that a pair stands for is written as it is. -/
theorem decodeUnits_charOfPair {u v : Nat} (h : isPair u v = true) (seen : List Nat) (rest : List Char) :
    decodeUnits seen (charOfPair u v :: rest) = decodeUnits (v :: u :: seen) rest := by
  have hne : ∀ c : Char, c.toNat < 0x10000 → charOfPair u v ≠ c := by
    rintro c hc rfl
    have hu := unitsOf_charOfPair h
    simp [unitsOf, hc] at hu
  have hl : ¬(charOfPair u v).toNat < 0x20 := fun hl => hne _ (by omega) rfl
  rw [decodeUnits_cons (hne '"' (by decide)) (hne '\\' (by decide)) hl, unitsOf_charOfPair h]
  rfl

theorem decodeUnits_encodeUnits (us : List Nat) (h : ∀ u ∈ us, u < 0x10000) (seen : List Nat) (rest : List Char) :
    decodeUnits seen (encodeUnits us ++ '"' :: rest) = some (seen.reverse ++ us, rest) := by
  fun_induction encodeUnits us generalizing seen with
  | case1 => simp [decodeUnits]
  | case2 u => rw [decodeUnits_encodeUnit (h u (by simp))]; simp [decodeUnits]
  | case3 u v r hp ih =>
    rw [List.cons_append, decodeUnits_charOfPair hp, ih (fun w hw => h w (by simp [hw]))]
    simp
  | case4 u v r _ ih =>
    rw [List.append_assoc, decodeUnits_encodeUnit (h u (by simp)), ih (fun w hw => h w (by simp [List.mem_cons.1 hw]))]
    simp

theorem decodeUnits_body (t : Text) (rest : List Char) :
    decodeUnits [] (body t ++ '"' :: rest) = some (t.units, rest) := by
  cases t with
  | whole s => simp [body, Text.units, decodeUnits_encodeChars]
  | broken us hb =>
    have hlt : ∀ u ∈ us, u < 0x10000 := by
      simp only [Text.isBroken, Bool.and_eq_true, List.all_eq_true, decide_eq_true_eq] at hb
      exact hb.1
    simp [body, Text.units, decodeUnits_encodeUnits us hlt]

/-- Reading takes back what writing made, and stops at the closing quote. -/
theorem decode_encode (t : Text) (rest : List Char) :
    decode ((encode t).tail ++ rest) = some (t, rest) := by
  simp [decode, encode, decodeUnits_body, Text.ofUnits_units]

end PolicyGates.Text.Quoted
