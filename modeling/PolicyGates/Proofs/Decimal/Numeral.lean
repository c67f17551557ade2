import PolicyGates.Proofs.Decimal.Shortest
/-!
# Numbers are read back

A finite double is read back from the way it is written, the sign of zero aside, whatever stands behind it that does
not go on with the number (`json_chars`).  Each layout writes the digits of the shortest decimal, with zeros before or
behind them, and so is read as the double nearest to that decimal.
-/
namespace PolicyGates.Decimal

open Double

/-- What can stand behind a number without going on with it. -/
def Ends (r : List Char) : Prop := ∀ c ∈ r.head?, c.isDigit = false ∧ c ≠ '.' ∧ c ≠ 'e' ∧ c ≠ 'E'

/-! ## Spans of digits -/

theorem spanDigits_append {ds r : List Char} (hds : ∀ c ∈ ds, c.isDigit = true)
    (hr : ∀ c ∈ r.head?, c.isDigit = false) :
    spanDigits (ds ++ r) = (ds, r) := by
  unfold spanDigits
  rw [List.span_eq_takeWhile_dropWhile, List.takeWhile_append_of_pos hds, List.dropWhile_append_of_pos hds]
  cases r with
  | nil => rw [List.takeWhile_nil, List.dropWhile_nil, List.append_nil]
  | cons c r =>
    have hc : ¬c.isDigit = true := by rw [hr c rfl]; decide
    rw [List.takeWhile_cons_of_neg hc, List.dropWhile_cons_of_neg hc, List.append_nil]

theorem isDigit_zero : ∀ c ∈ ['0'], c.isDigit = true := List.all_eq_true.1 rfl

theorem isDigit_digitsOf {n : Nat} {c : Char} (h : c ∈ digitsOf n) : c.isDigit = true :=
  Nat.isDigit_of_mem_toDigits (by decide) (by decide) h

theorem head_digitsOf {n : Nat} (h : 0 < n) : (digitsOf n).head? ≠ some '0' := by
  intro h0
  obtain ⟨cs, hcs⟩ := List.head?_eq_some_iff.1 h0
  have hdigits : ∀ c ∈ cs, c.isDigit = true := fun c hc => isDigit_digitsOf (n := n) (hcs ▸ List.mem_cons_of_mem _ hc)
  have hvalue := valueOfDigits_toDigits n
  change valueOfDigits (digitsOf n) = n at hvalue
  rw [hcs, valueOfDigits_cons] at hvalue
  have hlt := valueOfDigits_lt hdigits
  rw [show ('0' : Char).toNat - 48 = 0 from rfl, Nat.zero_mul, Nat.zero_add] at hvalue
  rcases Nat.eq_zero_or_pos cs.length with hnil | hpos
  · rw [hnil] at hlt
    omega
  · have hlength := (Nat.length_toDigits_le_iff (b := 10) (n := n) (by decide) hpos).2 (by omega)
    change (digitsOf n).length ≤ _ at hlength
    rw [hcs, List.length_cons] at hlength
    omega

/-! ## Exponents -/

theorem exponentPart_ends {r : List Char} (h : Ends r) : exponentPart r = some (0, r) := by
  cases r with
  | nil => rfl
  | cons c r =>
    obtain ⟨-, -, he, hE⟩ := h c rfl
    rw [exponentPart, if_neg (not_or.2 ⟨he, hE⟩)]

theorem exponentPart_written (p : Int) {r : List Char} (h : Ends r) :
    exponentPart ('e' :: (if p < 0 then '-' else '+') :: (digitsOf p.natAbs ++ r)) = some (p, r) := by
  have hspan : spanDigits (digitsOf p.natAbs ++ r) = (digitsOf p.natAbs, r) :=
    spanDigits_append (fun c => isDigit_digitsOf) (fun c hc => (h c hc).1)
  have hne : digitsOf p.natAbs ≠ [] := Nat.toDigits_ne_nil
  have hvalue : valueOfDigits (digitsOf p.natAbs) = p.natAbs := valueOfDigits_toDigits _
  rw [exponentPart, if_pos (Or.inl rfl)]
  by_cases hp : p < 0
  · rw [if_pos hp]
    simp only [splitSign, hspan, if_neg hne, hvalue, if_true]
    rw [show -(p.natAbs : Int) = p by omega]
  · rw [if_neg hp]
    simp only [splitSign, hspan, if_neg hne, hvalue]
    rw [show (p.natAbs : Int) = p by omega]
    rfl

/-! ## Behind the sign -/

/-- What is read behind the sign. -/
def unsignedPart (negative : Bool) (cs : List Char) : Option (Float × List Char) :=
  let (whole, cs) := spanDigits cs
  if whole = [] ∨ (whole.head? = some '0' ∧ 1 < whole.length) then none
  else
    match cs with
    | '.' :: r =>
      let (fraction, r) := spanDigits r
      if fraction = [] then none
      else (exponentPart r).map (fun p => (assemble negative whole fraction p.1, p.2))
    | r => (exponentPart r).map (fun p => (assemble negative whole [] p.1, p.2))

theorem json_minus (cs : List Char) : json ('-' :: cs) = unsignedPart true cs := rfl

theorem json_of_ne {c : Char} (h : c ≠ '-') (cs : List Char) : json (c :: cs) = unsignedPart false (c :: cs) := by
  unfold json
  dsimp only
  split
  · next hminus => exact absurd (List.cons.inj hminus).1 h
  · rfl

theorem json_digit {c : Char} (h : c.isDigit = true) (cs : List Char) : json (c :: cs) = unsignedPart false (c :: cs) :=
  json_of_ne (fun hc => by cases hc ▸ h) cs

section Written

variable (negative : Bool) {whole fraction tail r : List Char} {p : Int} (hwhole : ∀ c ∈ whole, c.isDigit = true)
  (hne : whole ≠ []) (hzero : whole.head? = some '0' → whole.length ≤ 1) (htail : exponentPart tail = some (p, r))
include hwhole hne hzero htail

theorem unsignedPart_whole (hend : ∀ c ∈ tail.head?, c.isDigit = false ∧ c ≠ '.') :
    unsignedPart negative (whole ++ tail) = some (assemble negative whole [] p, r) := by
  unfold unsignedPart
  rw [spanDigits_append hwhole fun c hc => (hend c hc).1]
  dsimp only
  rw [if_neg (not_or.2 ⟨hne, fun hc => absurd (hzero hc.1) (by omega)⟩)]
  split
  · exact absurd rfl (hend _ rfl).2
  · rw [htail]
    rfl

theorem unsignedPart_fraction (hfraction : ∀ c ∈ fraction, c.isDigit = true) (hsome : fraction ≠ [])
    (hend : ∀ c ∈ tail.head?, c.isDigit = false) :
    unsignedPart negative (whole ++ '.' :: (fraction ++ tail)) = some (assemble negative whole fraction p, r) := by
  have hpoint : ∀ c ∈ ('.' :: (fraction ++ tail)).head?, c.isDigit = false := fun c hc => by
    obtain rfl := Option.some.inj hc
    rfl
  unfold unsignedPart
  rw [spanDigits_append hwhole hpoint]
  dsimp only
  rw [if_neg (not_or.2 ⟨hne, fun hc => absurd (hzero hc.1) (by omega)⟩)]
  simp only [spanDigits_append hfraction hend, if_neg hsome, htail, Option.map_some]

end Written

/-! ## Layouts -/

/-- The digits and the exponent that a layout is read as write the same decimal as the digits with the point. -/
structure Rewrites (ds : List Char) (n : Int) (ds' : List Char) (e : Int) : Prop where
  digits : ∀ c ∈ ds', c.isDigit = true
  level : decimalLevel (valueOfDigits ds') e = decimalLevel (valueOfDigits ds) (n - ds.length)

def signed (negative : Bool) (x : Float) : Float := if negative then -x else x

theorem assemble_eq (negative : Bool) (whole fraction : List Char) (e : Int) :
    assemble negative whole fraction e = signed negative (nearest (whole ++ fraction) (e - fraction.length)) := rfl

section Placed

variable (negative : Bool) {ds r : List Char} {n : Int} (hds : ∀ c ∈ ds, c.isDigit = true) (hne : ds ≠ [])
  (hhead : ds.head? ≠ some '0') (hr : Ends r)
include hds

theorem rewrites_self {e : Int} (h : e = n - ds.length) : Rewrites ds n ds e := ⟨hds, by rw [h]⟩

include hne

theorem place_head : ∃ c cs, Layout.standard.place ds n = c :: cs ∧ c.isDigit = true := by
  obtain ⟨c, cs, rfl⟩ := List.exists_cons_of_ne_nil hne
  have hc := hds c List.mem_cons_self
  unfold Layout.place
  split
  · split
    · exact ⟨'0', _, rfl, rfl⟩
    · split
      · exact ⟨c, _, rfl, hc⟩
      · next h0 h =>
        obtain ⟨k, hk⟩ : ∃ k, n.toNat = k + 1 := ⟨n.toNat - 1, by omega⟩
        rw [hk]
        exact ⟨c, _, rfl, hc⟩
  · exact ⟨c, _, rfl, hc⟩

include hr in
theorem placed_small (h : n ≤ 0) : ∃ ds' e, Rewrites ds n ds' e
    ∧ unsignedPart negative (['0', '.'] ++ List.replicate (-n).toNat '0' ++ ds ++ r)
      = some (signed negative (nearest ds' e), r) := by
  have hzeros : ∀ c ∈ List.replicate (-n).toNat '0', c.isDigit = true := fun c hc => List.eq_of_mem_replicate hc ▸ rfl
  have hfraction : ∀ c ∈ List.replicate (-n).toNat '0' ++ ds, c.isDigit = true := List.forall_mem_append.2 ⟨hzeros, hds⟩
  refine ⟨['0'] ++ (List.replicate (-n).toNat '0' ++ ds),
    0 - (List.replicate (-n).toNat '0' ++ ds).length, ⟨?_, ?_⟩, ?_⟩
  · exact List.forall_mem_append.2 ⟨isDigit_zero, hfraction⟩
  · rw [valueOfDigits_append, valueOfDigits_append, valueOfDigits_zeros, Nat.zero_mul, Nat.zero_add,
      show valueOfDigits ['0'] = 0 from rfl, Nat.zero_mul, Nat.zero_add, List.length_append, List.length_replicate]
    congr 1
    omega
  · rw [List.append_assoc, List.append_assoc, ← List.append_assoc (List.replicate _ _) ds r, List.cons_append,
      List.cons_append, List.nil_append]
    exact unsignedPart_fraction negative isDigit_zero (List.cons_ne_nil _ _) (fun _ => Nat.le_refl 1)
      (exponentPart_ends hr) hfraction
      (List.append_ne_nil_of_right_ne_nil _ hne) (fun c hc => (hr c hc).1)

include hhead

include hr in
theorem placed_whole (h : (ds.length : Int) ≤ n) : ∃ ds' e, Rewrites ds n ds' e
    ∧ unsignedPart negative (ds ++ List.replicate (n.toNat - ds.length) '0' ++ r)
      = some (signed negative (nearest ds' e), r) := by
  obtain ⟨k, hk⟩ : ∃ k, n.toNat - ds.length = k := ⟨_, rfl⟩
  have hzeros : ∀ c ∈ List.replicate k '0', c.isDigit = true := fun c hc => List.eq_of_mem_replicate hc ▸ rfl
  have hwhole : ∀ c ∈ ds ++ List.replicate k '0', c.isDigit = true := List.forall_mem_append.2 ⟨hds, hzeros⟩
  rw [hk]
  refine ⟨ds ++ List.replicate k '0' ++ [], 0 - ([] : List Char).length, ⟨?_, ?_⟩, ?_⟩
  · rwa [List.append_nil]
  · rw [List.append_nil, valueOfDigits_append, valueOfDigits_zeros, Nat.add_zero, List.length_replicate,
      show n - (ds.length : Int) = k by omega, ← decimalLevel_mul_pow _ k k, Int.sub_self]
    rfl
  · refine unsignedPart_whole negative hwhole (List.append_ne_nil_of_left_ne_nil hne _) (fun hc => ?_)
      (exponentPart_ends hr) (fun c hc => ⟨(hr c hc).1, (hr c hc).2.1⟩)
    rw [List.head?_append, List.head?_eq_some_head hne, Option.some_or, ← List.head?_eq_some_head hne] at hc
    exact absurd hc hhead

theorem placed_point {tail : List Char} {p : Int} {k : Nat} (h0 : 0 < k) (hk : k < ds.length)
    (htail : exponentPart tail = some (p, r)) (hend : ∀ c ∈ tail.head?, c.isDigit = false) :
    unsignedPart negative (ds.take k ++ '.' :: (ds.drop k ++ tail))
      = some (signed negative (nearest ds (p - (ds.length - k : Nat))), r) := by
  have hwhole : ∀ c ∈ ds.take k, c.isDigit = true := fun c hc => hds c (List.mem_of_mem_take hc)
  have hfraction : ∀ c ∈ ds.drop k, c.isDigit = true := fun c hc => hds c (List.mem_of_mem_drop hc)
  have hsome : ds.drop k ≠ [] := fun hc => by
    have := List.drop_eq_nil_iff.1 hc
    omega
  have hstart : ds.take k ≠ [] := fun hc => (List.take_eq_nil_iff.1 hc).elim (by omega) hne
  rw [unsignedPart_fraction negative hwhole hstart (fun hc => ?_) htail hfraction hsome hend, assemble_eq,
    List.take_append_drop, List.length_drop]
  rw [List.head?_take, if_neg (by omega)] at hc
  exact absurd hc hhead

include hr

theorem placed_exponent {p : Int} (hp : n - 1 = p) : ∃ ds' e, Rewrites ds n ds' e
    ∧ unsignedPart negative (ds.take 1 ++ (if ds.length ≤ 1 then [] else '.' :: ds.drop 1)
      ++ ['e', if p < 0 then '-' else '+']
        ++ digitsOf p.natAbs ++ r) = some (signed negative (nearest ds' e), r) := by
  have hlength := List.length_pos_iff.2 hne
  have htail := exponentPart_written p hr
  have hmark : ∀ c ∈ ('e' :: (if p < 0 then '-' else '+') :: (digitsOf p.natAbs ++ r)).head?,
    c.isDigit = false ∧ c ≠ '.' :=
    fun c hc => by
      obtain rfl := Option.some.inj hc
      decide
  refine ⟨ds, n - ds.length, rewrites_self hds rfl, ?_⟩
  by_cases hone : ds.length ≤ 1
  · rw [if_pos hone, List.append_nil, List.take_of_length_le hone, List.append_assoc, List.append_assoc]
    have hwhole := unsignedPart_whole negative hds hne (fun _ => hone) htail hmark
    have hplaces : p - ([] : List Char).length = n - ds.length := by
      rw [List.length_nil]
      omega
    rw [assemble_eq, List.append_nil, hplaces] at hwhole
    exact hwhole
  · rw [if_neg hone, List.append_assoc, List.append_assoc, List.append_assoc]
    have hpoint := placed_point negative hds hne hhead Nat.one_pos (Nat.not_le.1 hone) htail
      (fun c hc => (hmark c hc).1)
    rw [show p - (ds.length - 1 : Nat) = n - ds.length by omega] at hpoint
    exact hpoint

/-- **A placed number is read as the double nearest to it.** -/
theorem unsignedPart_place : ∃ ds' e, Rewrites ds n ds' e
    ∧ unsignedPart negative (Layout.standard.place ds n ++ r) = some (signed negative (nearest ds' e), r) := by
  unfold Layout.place
  split
  · split
    · next h => exact placed_small negative hds hne hr h
    · split
      · next h => exact placed_whole negative hds hne hhead hr (by omega)
      · next h0 h =>
        have hpoint := placed_point negative hds hne hhead (k := n.toNat) (by omega) (by omega) (exponentPart_ends hr)
          (fun c hc => (hr c hc).1)
        rw [List.append_assoc]
        exact ⟨ds, _, rewrites_self hds (by omega), hpoint⟩
  · exact placed_exponent negative hds hne hhead hr rfl

end Placed

/-! ## Numbers -/

theorem exists_zeros (s : Nat) : ∃ z, dropZeros (digitsOf s) ++ List.replicate z '0' = digitsOf s
    ∧ valueOfDigits (dropZeros (digitsOf s)) * 10 ^ z = s := by
  obtain ⟨z, hz⟩ := dropZeros_append (digitsOf s)
  refine ⟨z, hz, ?_⟩
  have h := valueOfDigits_toDigits s
  change valueOfDigits (digitsOf s) = s at h
  rw [← hz, valueOfDigits_append, valueOfDigits_zeros, List.length_replicate] at h
  exact h

theorem decimalLevel_dropZeros (s : Nat) (e : Int) : decimalLevel (valueOfDigits (dropZeros (digitsOf s)))
    (e + (digitsOf s).length - (dropZeros (digitsOf s)).length) = decimalLevel s e := by
  obtain ⟨z, hz, hvalue⟩ := exists_zeros s
  have hlength := length_dropZeros hz
  rw [← decimalLevel_mul_pow _ z, hvalue]
  congr 1
  omega

theorem level_signed {x : Float} (hx : x.isNaN = false) (s : Float.Model.UnpackedFloat.Sign) {n : Nat}
    (h : level x = n) :
    (signed (isNegative s) x).isNaN = false ∧ level (signed (isNegative s) x) = s.apply n := by
  cases s
  · obtain ⟨hnan, hlevel⟩ := level_neg hx
    exact ⟨hnan, hlevel.trans (congrArg Neg.neg h)⟩
  · exact ⟨hx, h⟩

/-- **A written decimal is read as the double nearest to it.** -/
theorem json_written (s : Float.Model.UnpackedFloat.Sign) {v n : Nat} {e : Int} (hv : 0 < v) (hn : decimalLevel v e = n)
    (hlt : n < infiniteLevel) {r : List Char} (hr : Ends r) :
    ∃ y, json (written (isNegative s) v e ++ r) = some (y, r) ∧ y.isNaN = false ∧ level y = s.apply n := by
  obtain ⟨z, hz, hvalue⟩ := exists_zeros v
  have hds : ∀ c ∈ dropZeros (digitsOf v), c.isDigit = true := fun c hc =>
    isDigit_digitsOf (n := v) (hz ▸ List.mem_append_left _ hc)
  have hne : dropZeros (digitsOf v) ≠ [] := fun hc => by
    rw [hc, show valueOfDigits [] = 0 from rfl, Nat.zero_mul] at hvalue
    omega
  have hhead : (dropZeros (digitsOf v)).head? ≠ some '0' := fun hc => by
    refine head_digitsOf hv ?_
    rw [← hz, List.head?_append, hc, Option.some_or]
  obtain ⟨ds', e', hrewrites, hread⟩ :=
    unsignedPart_place (isNegative s) hds hne hhead hr (n := e + (digitsOf v).length)
  obtain ⟨hnan, hlevel⟩ := level_nearest hrewrites.digits e'
  rw [hrewrites.level, decimalLevel_dropZeros, hn, Nat.min_eq_left (Nat.le_of_lt hlt)] at hlevel
  refine ⟨_, ?_, level_signed hnan s hlevel⟩
  unfold written
  cases s with
  | negative => exact (json_minus _).trans hread
  | positive =>
    obtain ⟨c, cs, hplace, hdigit⟩ := place_head hds hne (n := e + (digitsOf v).length)
    rw [hplace] at hread ⊢
    exact (json_digit hdigit (cs ++ r)).trans hread

/-- **A finite number is read back from the way it is written**, the sign of zero aside, whatever stands behind it that
does not go on with it. -/
theorem json_chars {x : Float} (hx : x.isFinite = true) {r : List Char} (hr : Ends r) :
    json (chars x ++ r) = some (if x == 0.0 then 0.0 else x, r) := by
  have hnan := isNaN_of_isFinite hx
  by_cases h0 : level x = 0
  · have hbeq : (x == 0.0) = true := (beq_iff hnan (by decide)).2 (h0.trans (by decide))
    have hzero := unsignedPart_whole false isDigit_zero (List.cons_ne_nil _ _) (fun _ => Nat.le_refl 1)
      (exponentPart_ends hr) (fun c hc => ⟨(hr c hc).1, (hr c hc).2.1⟩)
    rw [chars_of_level_eq_zero hnan h0, List.cons_append, json_digit rfl, if_pos hbeq]
    exact hzero.trans (congrArg (fun y => some (y, r)) (by decide))
  · have hbeq : ¬(x == 0.0) = true := fun hc => h0 (((beq_iff hnan (by decide)).1 hc).trans (by decide))
    obtain ⟨s, m, q, hm, hu, ⟨hm53, hq, hq', hplaces⟩, hx'⟩ := exists_finite hx h0
    have hparts : Binary.ofFloat? x = some ⟨isNegative s, m, q⟩ := by
      rw [ofFloat?_eq, hu]
      rfl
    obtain ⟨v, e, hshort, hholds⟩ := shortest_holds hm hm53 hq hq'
    have hlevel := decimalLevel_of_holds hm hm53 hq hplaces hholds
    have hv : 0 < v := Nat.pos_of_ne_zero fun hv => by
      rw [hv, decimalLevel_zero] at hlevel
      exact absurd hlevel (magnitude_pos hm q).ne
    obtain ⟨y, hread, hynan, hy⟩ := json_written s hv hlevel (magnitude_lt hm53 hq') hr
    obtain rfl : y = x := eq_of_level hynan (hy.trans hx'.symm) (by rwa [hy, ← hx'])
    rw [if_neg hbeq, ← hread, chars_of_shortest hparts hm.ne' hshort]

end PolicyGates.Decimal
