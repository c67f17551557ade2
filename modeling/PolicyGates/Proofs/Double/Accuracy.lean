import PolicyGates.Proofs.Double.Mean
/-!
# How far off sums and means are

A sum of doubles that are not negative is off by a part in `2^53` of what it comes to at most (`add_within`), and is
exact if it has few enough digits (`add_of_places`).  A sum that is no larger than the number of things it is divided
by gives a mean between zero and one (`div_le_one`), which each thing moves by a part in `2^53` at most
(`div_ofNat_within`).  Means of sums that differ in their last place only are still different ones (`div_ofNat_lt`).
-/
namespace PolicyGates.Double

theorem level_one : level 1.0 = wholeLevel 1 := level_ofNat_of_le (n := 1) (by decide)

/-- **Sums from zero at one level are the same double.** -/
theorem IsSum.eq_of_level {x y : Float} (hx : IsSum x) (hy : IsSum y) (h : level x = level y) : x = y := by
  have hzero : level (0.0 : Float) = 0 := by decide
  rcases hx.isPositive with rfl | hpos
  · rcases hy.isPositive with rfl | hpos
    · rfl
    · omega
  · exact Double.eq_of_level (isNaN_of_isFinite hx.isFinite) h hpos.ne'

theorem isSum_of_one_le {x : Float} (hx : x.isFinite = true) (h : 1.0 ≤ x) : IsSum x := by
  have hone := wholeLevel_pos (n := 1) Nat.one_pos
  rw [le_iff (by decide) (isNaN_of_isFinite hx), level_one] at h
  exact ⟨hx, .inr (by omega)⟩

/-! ## Sums -/

section Sums

variable {s x : Float} (hs : s.isFinite = true) (hx : x.isFinite = true) (hs0 : 0.0 ≤ s) (hx0 : 0.0 ≤ x)
  (hsum : (s + x).isFinite = true)

include hs hx hs0 hx0 hsum

theorem level_add_of_isFinite : ∃ t : Nat, level s + level x = t ∧ level (s + x) = nearest t := by
  rw [zero_le_iff (isNaN_of_isFinite hs)] at hs0
  rw [zero_le_iff (isNaN_of_isFinite hx)] at hx0
  obtain ⟨t, ht⟩ := Int.eq_ofNat_of_zero_le (Int.add_nonneg hs0 hx0)
  obtain ⟨hnumber, hlevel⟩ := level_add hs hx
  rw [ht, rounded_natCast] at hlevel
  rw [isFinite_iff hnumber, hlevel] at hsum
  exact ⟨t, ht, by omega⟩

/-- **A sum is off by a part in `2^53` at most.** -/
theorem add_within : 2 ^ 53 * |level (s + x) - (level s + level x)| ≤ level s + level x := by
  obtain ⟨t, ht, hlevel⟩ := level_add_of_isFinite hs hx hs0 hx0 hsum
  obtain ⟨hlow, hhigh⟩ := nearest_within t
  rw [hlevel, ht]
  rcases abs_cases ((nearest t : Int) - t) with ⟨habs, -⟩ | ⟨habs, -⟩ <;> rw [habs] <;> omega

/-- **A sum with at most 53 digits is exact.** -/
theorem add_of_places {m k : Nat} (h : level s + level x = (m * 2 ^ k : Nat)) (hm : m ≤ 2 ^ 53) :
    level (s + x) = level s + level x := by
  obtain ⟨t, ht, hlevel⟩ := level_add_of_isFinite hs hx hs0 hx0 hsum
  obtain rfl : t = m * 2 ^ k := by omega
  rw [hlevel, ht, nearest_of_le_places hm]

end Sums

theorem level_zero_add {x : Float} (hx : x.isFinite = true) :
    (0.0 + x).isFinite = true ∧ level (0.0 + x) = level x := by
  obtain ⟨hnumber, hlevel⟩ := level_add (show (0.0 : Float).isFinite = true by decide) hx
  rw [show level (0.0 : Float) = 0 by decide, Int.zero_add, rounded_level hx] at hlevel
  refine ⟨?_, hlevel⟩
  rw [isFinite_iff hnumber, hlevel]
  exact (isFinite_iff (isNaN_of_isFinite hx)).1 hx

/-- **The first two numbers of a sum can be exchanged.** -/
theorem zero_add_add_comm {x y : Float} (hx : x.isFinite = true) (hy : y.isFinite = true) (hx0 : 0.0 ≤ x)
    (hy0 : 0.0 ≤ y) (hsum : (0.0 + x + y).isFinite = true) :
    0.0 + x + y = 0.0 + y + x := by
  obtain ⟨hfx, hlx⟩ := level_zero_add hx
  obtain ⟨hfy, hly⟩ := level_zero_add hy
  obtain ⟨hnumber, hlevel⟩ := level_add hfx hy
  obtain ⟨hnumber', hlevel'⟩ := level_add hfy hx
  have hsame : level (0.0 + x + y) = level (0.0 + y + x) := by rw [hlevel, hlevel', hlx, hly, Int.add_comm]
  have hsum' : (0.0 + y + x).isFinite = true := by
    rw [isFinite_iff hnumber', ← hsame]
    exact (isFinite_iff hnumber).1 hsum
  exact ((isSum_zero.add hx hx0 hfx).add hy hy0 hsum).eq_of_level ((isSum_zero.add hy hy0 hfy).add hx hx0 hsum') hsame

/-! ## Means -/

/-- **A quotient by a number that is as large is at most one.** -/
theorem div_le_one {x y : Float} (hx : x.isFinite = true) (hy : y.isNaN = false) (h0 : 0.0 ≤ x) (h : x ≤ y)
    (hpos : 0 < level y) :
    x / y ≤ 1.0 := by
  have hxnumber := isNaN_of_isFinite hx
  have h1 : 0 < wholeLevel 1 := wholeLevel_pos Nat.one_pos
  rw [le_iff (isNaN_div hx hy hpos.ne') (by decide), level_one]
  cases hyf : y.isFinite with
  | false =>
    rw [(level_div_eq_zero hx hy (.inr hyf)).2]
    omega
  | true =>
    have hself : level (y / y) = wholeLevel 1 := by
      have hcancel : (level y).toNat * magnitude 1 0 * 1 = wholeLevel 1 * (level y).toNat := by
        rw [Nat.mul_one, Nat.mul_comm]
        rfl
      rw [(level_div hyf hyf hpos hpos).2, nearestTo_congr (by omega) Nat.one_pos hcancel, nearestTo_one,
        nearest_wholeLevel (by decide), Nat.min_eq_left (Nat.le_of_lt (wholeLevel_lt_infinite (by decide)))]
    have hle := div_le_div hx hyf hy ((zero_le_iff hxnumber).1 h0) hpos h
    rwa [le_iff (isNaN_div hx hy hpos.ne') (isNaN_div hyf hy hpos.ne'), hself] at hle

theorem wholeLevel_one_ge : 2 ^ 53 ≤ wholeLevel 1 := by
  obtain ⟨w, hw, hwhole⟩ := wholeLevel_eq
  rw [hwhole, Nat.one_mul]
  exact Nat.pow_le_pow_right (by decide) (by omega)

theorem nearestTo_le_wholeLevel {t n : Nat} (hn : 0 < n) (h : t ≤ wholeLevel n) : nearestTo t n ≤ wholeLevel 1 := by
  have hle := nearestTo_le_nearestTo hn h
  rwa [wholeLevel_eq_mul n, nearestTo_congr hn Nat.one_pos (show n * wholeLevel 1 * 1 = wholeLevel 1 * n by ring),
    nearestTo_one, nearest_wholeLevel (by decide)] at hle

/-- **A mean of numbers up to one is off by a part in `2^53` at most.** -/
theorem div_ofNat_within {s : Float} {n : Nat} (hn : 0 < n) (hlimit : n ≤ limit) (hs : s.isFinite = true) (h0 : 0.0 ≤ s)
    (h : s ≤ Float.ofNat n) : 2 ^ 53 * |n * level (s / Float.ofNat n) - level s| ≤ n * wholeLevel 1 := by
  have hlarge := wholeLevel_one_ge
  have hle : level s ≤ n * wholeLevel 1 := by
    rw [le_iff (isNaN_of_isFinite hs) (isNaN_ofNat n), level_ofNat_of_le hlimit, wholeLevel_eq_mul n] at h
    exact_mod_cast h
  obtain ⟨t, ht⟩ := Int.eq_ofNat_of_zero_le ((zero_le_iff (isNaN_of_isFinite hs)).1 h0)
  rcases Nat.eq_zero_or_pos t with rfl | hpos
  · have hzero := (level_div_eq_zero hs (isNaN_ofNat n) (.inl ⟨ht, (level_ofNat_pos hn).ne'⟩)).2
    rw [hzero, ht, Int.mul_zero, Int.natCast_zero, Int.sub_zero, abs_zero, Int.mul_zero]
    exact Int.mul_nonneg (Int.natCast_nonneg _) (Int.natCast_nonneg _)
  · have hbound : t ≤ wholeLevel n := by
      rw [ht] at hle
      rw [wholeLevel_eq_mul n]
      exact_mod_cast hle
    have hone := nearestTo_le_wholeLevel hn hbound
    have hfinite := wholeLevel_lt_infinite (n := 1) (by decide)
    rw [level_div_ofNat hs ht hpos hn hlimit, ht, Nat.min_eq_left (by omega)]
    have hround : 2 ^ 53 * t ≤ 2 ^ 53 * (nearestTo t n * n) + n * wholeLevel 1
        ∧ 2 ^ 53 * (nearestTo t n * n) ≤ 2 ^ 53 * t + n * wholeLevel 1 := by
      rcases Nat.lt_or_ge (t / n) (2 ^ 53) with hq | hq
      · have hhalf := nearestTo_within_half hn hq
        have := Nat.mul_le_mul_left n hlarge
        omega
      · have hpart := nearestTo_within hn (show 2 ^ 52 ≤ t / n by omega)
        rw [wholeLevel_eq_mul n] at hbound
        omega
    rw [Int.mul_comm (n : Int)]
    rcases abs_cases ((nearestTo t n : Int) * n - t) with ⟨habs, -⟩ | ⟨habs, -⟩ <;> rw [habs] <;> omega

/-! ## Means of neighbours -/

/-- A power of two and the double after it have different parts. -/
theorem nearestTo_lt_next {n c : Nat} (k : Nat) (hlow : 2 ^ c < 2 * n) (hhigh : n ≤ 2 ^ c) (hc : c < 52) :
    nearestTo (2 ^ 52 * 2 ^ (c + k)) n < nearestTo ((2 ^ 52 + 1) * 2 ^ (c + k)) n := by
  have hn : 0 < n := by omega
  have hplaces : 2 ^ c < 2 ^ 52 := Nat.pow_lt_pow_right (by decide) hc
  have hk := Nat.two_pow_pos k
  have hfirst : 2 ^ 52 * (n * 2 ^ k) ≤ 2 ^ 52 * 2 ^ (c + k) := by
    rw [Nat.pow_add]
    exact Nat.mul_le_mul_left _ (Nat.mul_le_mul_right _ hhigh)
  have hlast : (2 ^ 52 + 1) * 2 ^ (c + k) < 2 ^ 53 * (n * 2 ^ k) := by
    rw [Nat.pow_add, ← Nat.mul_assoc, ← Nat.mul_assoc]
    exact Nat.mul_lt_mul_of_pos_right (by omega) hk
  rw [nearestTo_of_binade hn hfirst (by omega), nearestTo_of_binade hn (by omega) hlast]
  refine Nat.mul_lt_mul_of_pos_right ?_ hk
  rcases Nat.lt_or_eq_of_le hhigh with hlt | rfl
  · have hplace : n * 2 ^ k < 2 ^ (c + k) := by
      rw [Nat.pow_add]
      exact Nat.mul_lt_mul_of_pos_right hlt hk
    exact roundDiv_lt_roundDiv (Nat.mul_pos hn hk) (by omega)
  · rw [← Nat.pow_add 2 c k, roundDiv_mul _ (Nat.two_pow_pos _), roundDiv_mul _ (Nat.two_pow_pos _)]
    exact Nat.lt_succ_self _

/-- **One and the double after it have different means**, of however many things up to `2^51`. -/
theorem div_ofNat_lt {n : Nat} (hn : 0 < n) (hle : n ≤ 2 ^ 51) :
    (1.0 : Float) / Float.ofNat n < 1.0000000000000002 / Float.ofNat n := by
  have hlimit : n ≤ limit := Nat.le_trans hle (by decide)
  obtain ⟨w, hw, hwhole⟩ := wholeLevel_eq
  obtain ⟨c, hc⟩ : ∃ c, (2 * n - 1).log2 = c := ⟨_, rfl⟩
  have hlow : 2 ^ c ≤ 2 * n - 1 := hc ▸ Nat.log2_self_le (by omega)
  have hhigh : 2 * n - 1 < 2 ^ (c + 1) := hc ▸ Nat.lt_log2_self
  rw [Nat.pow_succ] at hhigh
  have hfew : c < 52 := (Nat.pow_lt_pow_iff_right (show 1 < 2 by decide)).1 (by omega)
  obtain ⟨k, rfl⟩ : ∃ k, w = 52 + (c + k) := ⟨w - 52 - c, by omega⟩
  have hone : level 1.0 = (2 ^ 52 * 2 ^ (c + k) : Nat) := by rw [level_one, hwhole, Nat.one_mul, Nat.pow_add]
  have hnext : level 1.0000000000000002 = ((2 ^ 52 + 1) * 2 ^ (c + k) : Nat) := by
    have hparts : (1.0000000000000002 : Float).toModel.unpack = .finite .positive (2 ^ 52 + 1) (-52) (by decide) := rfl
    unfold level
    rw [hparts, show c + k = ((-52 : Int) + 1074).toNat by omega]
    rfl
  have hpos := Nat.two_pow_pos (c + k)
  have hdiffer := nearestTo_lt_next k (show 2 ^ c < 2 * n by omega) (by omega) hfew
  have hbound : nearestTo (2 ^ 52 * 2 ^ (c + k)) n ≤ wholeLevel 1 := by
    refine nearestTo_le_wholeLevel hn ?_
    rw [← Nat.pow_add, hwhole]
    exact Nat.le_mul_of_pos_left _ hn
  have hfinite := wholeLevel_lt_infinite (n := 1) (by decide)
  rw [lt_iff (isNaN_div (by decide) (isNaN_ofNat n) (level_ofNat_pos hn).ne')
      (isNaN_div (by decide) (isNaN_ofNat n) (level_ofNat_pos hn).ne'),
    level_div_ofNat (by decide) hone (Nat.mul_pos (by decide) hpos) hn hlimit,
    level_div_ofNat (by decide) hnext (Nat.mul_pos (by decide) hpos) hn hlimit]
  omega

end PolicyGates.Double
