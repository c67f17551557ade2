import PolicyGates.Proofs.Double.Products
import Mathlib.Tactic.Linarith
import Mathlib.Tactic.Positivity
/-!
# The mean of equal numbers

A number added up some times over and divided by how often need not come out as it was: each sum is rounded, and so is
the quotient.  It does where the sums are exact, as for two numbers and for those with few digits
(`le_meanOf_of_few`). Otherwise it may come out smaller, but by no more than a part in `2^52` for each time it was
added (`le_meanOf`).
-/
namespace PolicyGates.Double

/-- A number added up, starting from zero. -/
def repeated (x : Float) : Nat → Float
  | 0 => 0.0
  | n + 1 => repeated x n + x

/-- The mean of a number with itself, as it is computed. -/
def meanOf (x : Float) (n : Nat) : Float := repeated x n / Float.ofNat n

/-- Where the sums of a number at a level stand. -/
def addedUp (t : Nat) : Nat → Nat
  | 0 => 0
  | n + 1 => nearest (addedUp t n + t)

/-! ## Sums on whole numbers -/

/-- **Sums that are doubles are exact.** -/
theorem addedUp_of_exact {t n : Nat} (h : ∀ i, i ≤ n → nearest (i * t) = i * t) : addedUp t n = n * t := by
  induction n with
  | zero => rw [addedUp, Nat.zero_mul]
  | succ n ih => rw [addedUp, ih fun i hi => h i (Nat.le_succ_of_le hi), ← Nat.succ_mul, h _ (Nat.le_refl _)]

/-- One more sum loses one part of what it comes to; `P` stands for `2^53`. -/
theorem shortfall_succ {P i t s s' : Int} (hP : 1 ≤ P) (hi : 0 ≤ i) (ht : 0 ≤ t)
    (hs : P * ((i + 1) * t) ≤ P * s + (i + 1) * i * t) (hround : P * (s + t) ≤ P * s' + (s + t)) :
    P * ((i + 2) * t) ≤ P * s' + (i + 2) * (i + 1) * t := by
  refine Int.le_of_mul_le_mul_left ?_ (show 0 < P by omega)
  have hexact : (P - 1) * (P * ((i + 2) * t) - (i + 1) * i * t) ≤ (P - 1) * (P * (s + t)) :=
    Int.mul_le_mul_of_nonneg_left (by linarith) (by omega)
  have hrounded : P * ((P - 1) * (s + t)) ≤ P * (P * s') := Int.mul_le_mul_of_nonneg_left (by linarith) (by omega)
  have hrest : 0 ≤ (P * i + (i + 1) * i) * t := by positivity
  calc P * (P * ((i + 2) * t))
      = (P - 1) * (P * ((i + 2) * t) - (i + 1) * i * t) + P * ((i + 2) * (i + 1) * t)
        - (P * i + (i + 1) * i) * t := by ring
    _ ≤ P * (P * s') + P * ((i + 2) * (i + 1) * t) := by linarith
    _ = P * (P * s' + (i + 2) * (i + 1) * t) := by ring

/-- **What the sums fall short by**: less than one part for each. -/
theorem le_addedUp {t : Nat} (h : nearest t = t) (n : Nat) :
    (2 : Int) ^ 53 * ((n + 1) * t) ≤ 2 ^ 53 * addedUp t (n + 1) + (n + 1) * n * t := by
  induction n with
  | zero =>
    have hfirst : addedUp t (0 + 1) = t := by rw [addedUp, addedUp, Nat.zero_add, h]
    rw [hfirst]
    simp
  | succ n ih =>
    have hround : (2 : Int) ^ 53 * (addedUp t (n + 1) + t) ≤ 2 ^ 53 * addedUp t (n + 2) + (addedUp t (n + 1) + t) := by
      exact_mod_cast (nearest_within (addedUp t (n + 1) + t)).1
    have hstep := shortfall_succ (by decide) (Int.natCast_nonneg n) (Int.natCast_nonneg t) ih hround
    push_cast
    rwa [show (n : Int) + 1 + 1 = n + 2 by ring]

/-! ## Means on whole numbers -/

section Shortfall

variable {P n t s m : Int} (hP : 1 ≤ P) (hn : 1 ≤ n) (ht : 0 ≤ t) (hs : P * (n * t) ≤ P * s + n * (n - 1) * t)

include hP hn ht hs in
/-- A mean that fills its places loses one part more. -/
theorem shortfall_of_places (hround : P * s ≤ P * (m * n) + s) : P * t ≤ P * m + n * t := by
  refine Int.le_of_mul_le_mul_left ?_ (show 0 < P * n by positivity)
  have hsum : (P - 1) * (P * (n * t) - n * (n - 1) * t) ≤ (P - 1) * (P * s) :=
    Int.mul_le_mul_of_nonneg_left (by linarith) (by omega)
  have hquotient : P * ((P - 1) * s) ≤ P * (P * (m * n)) := Int.mul_le_mul_of_nonneg_left (by linarith) (by omega)
  have hrest : 0 ≤ n * (n - 1) * t := by
    have : 0 ≤ n - 1 := by omega
    positivity
  calc P * n * (P * t) = (P - 1) * (P * (n * t) - n * (n - 1) * t) + P * n * (n * t) - n * (n - 1) * t := by ring
    _ ≤ P * (P * (m * n)) + P * n * (n * t) := by linarith
    _ = P * n * (P * m + n * t) := by ring

include hP hn ht hs in
/-- A mean with fewer places loses half of one, which is none if the sum has lost little. -/
theorem shortfall_of_half (hround : 2 * s ≤ 2 * (m * n) + n) : P * t ≤ P * m + 2 * n * t := by
  rcases Int.lt_or_le m t with hlt | hle
  · refine Int.le_of_mul_le_mul_left ?_ (show 0 < n by omega)
    have hquotient : P * (2 * s) ≤ P * (2 * (m * n) + n) := Int.mul_le_mul_of_nonneg_left hround (by omega)
    have hplace : n * P * 1 ≤ n * P * (t - m) := Int.mul_le_mul_of_nonneg_left (by omega) (by positivity)
    have hrest : 0 ≤ n * t := by positivity
    calc n * (P * t) = 2 * (P * (n * t)) - n * (P * t) := by ring
      _ ≤ n * (P * m) + 2 * n * (n * t) := by linarith
      _ = n * (P * m + 2 * n * t) := by ring
  · have hrest : 0 ≤ 2 * n * t := by positivity
    have := Int.mul_le_mul_of_nonneg_left hle (show 0 ≤ P by omega)
    omega

end Shortfall

/-- **What the mean falls short by.** -/
theorem le_nearestTo_addedUp {t n : Nat} (h : nearest t = t) (hn : 0 < n) :
    2 ^ 52 * t ≤ 2 ^ 52 * nearestTo (addedUp t n) n + n * t := by
  obtain ⟨j, rfl⟩ : ∃ j, n = j + 1 := ⟨n - 1, by omega⟩
  have hs : (2 : Int) ^ 53 * ((j + 1 : Nat) * t)
    ≤ 2 ^ 53 * addedUp t (j + 1) + (j + 1 : Nat) * ((j + 1 : Nat) - 1) * t := by
    have hsum := le_addedUp h j
    push_cast
    rwa [Int.add_sub_cancel]
  have hj : (1 : Int) ≤ (j + 1 : Nat) := by omega
  -- a mean of less than 53 places is a whole number of levels, and off by half of one at most; a longer one loses a
  -- part in `2^53`
  rcases Nat.lt_or_ge (addedUp t (j + 1) / (j + 1)) (2 ^ 53) with hq | hq
  · have hround := (nearestTo_within_half hn hq).1
    have hshort := shortfall_of_half (by decide) hj (Int.natCast_nonneg t) hs
      (m := nearestTo (addedUp t (j + 1)) (j + 1)) (by exact_mod_cast hround)
    have hle : (2 : Int) ^ 52 * t ≤ 2 ^ 52 * nearestTo (addedUp t (j + 1)) (j + 1) + (j + 1 : Nat) * t := by linarith
    exact_mod_cast hle
  · have hround := (nearestTo_within hn (show 2 ^ 52 ≤ addedUp t (j + 1) / (j + 1) by omega)).1
    have hshort := shortfall_of_places (by decide) hj (Int.natCast_nonneg t) hs
      (m := nearestTo (addedUp t (j + 1)) (j + 1)) (by exact_mod_cast hround)
    have hrest : (0 : Int) ≤ (j + 1 : Nat) * t := by positivity
    have hle : (2 : Int) ^ 52 * t ≤ 2 ^ 52 * nearestTo (addedUp t (j + 1)) (j + 1) + (j + 1 : Nat) * t := by linarith
    exact_mod_cast hle

/-! ## Means of doubles -/

theorem nearest_level {x : Float} {t : Nat} (hx : x.isFinite = true) (ht : level x = t) : nearest t = t := by
  have hlevel := rounded_level hx
  rw [isFinite_iff (isNaN_of_isFinite hx), ht] at hx
  rw [ht, rounded_natCast] at hlevel
  omega

/-- **A quotient of numbers that are not negative is not negative**, if the one it is divided by is not zero. -/
theorem zero_le_div {x y : Float} (hx : x.isFinite = true) (hy : y.isNaN = false) (h0 : 0.0 ≤ x) (hpos : 0 < level y) :
    0.0 ≤ x / y := by
  obtain ⟨hz, hzero⟩ := level_div_eq_zero (x := 0.0) (by decide) hy (.inl ⟨by decide, hpos.ne'⟩)
  have hnumber := isNaN_div hx hy hpos.ne'
  have hle : 0.0 / y ≤ x / y := div_le_div (by decide) hx hy (by decide) hpos h0
  rw [le_iff hz hnumber, hzero] at hle
  exact (zero_le_iff hnumber).2 hle

/-- **A positive double divided by a number of things is the nearest to the part of each.** -/
theorem level_div_ofNat {x : Float} {t n : Nat} (hx : x.isFinite = true) (ht : level x = t) (hpos : 0 < t) (hn : 0 < n)
    (hlimit : n ≤ limit) : level (x / Float.ofNat n) = (min (nearestTo t n) infiniteLevel : Nat) := by
  have hlevel := (level_div hx (isFinite_ofNat hlimit) (by omega) (level_ofNat_pos hn)).2
  rw [ht, level_ofNat_of_le hlimit, Int.toNat_natCast, Int.toNat_natCast, ← wholeLevel, wholeLevel_eq_mul n,
    nearestTo_mul_mul _ _ (wholeLevel_pos Nat.one_pos)] at hlevel
  exact hlevel

section Means

variable {x : Float} (hx : x.isFinite = true) (h0 : 0.0 ≤ x) (h1 : x ≤ 1.0)

include hx h0 h1

theorem repeated_le_counted (n : Nat) :
    (repeated x n).isFinite = true ∧ 0.0 ≤ repeated x n ∧ repeated x n ≤ counted n := by
  induction n with
  | zero =>
    have hlow : (0.0 : Float) ≤ 0.0 := by decide
    have hhigh : (0.0 : Float) ≤ counted 0 := by decide
    exact ⟨show (0.0 : Float).isFinite = true by decide, hlow, hhigh⟩
  | succ n ih =>
    obtain ⟨hf, hlow, hhigh⟩ := ih
    exact add_le_counted hf hlow hhigh hx h0 h1

theorem level_repeated {t : Nat} (ht : level x = t) (n : Nat) : level (repeated x n) = addedUp t n := by
  induction n with
  | zero => exact (by decide : level (0.0 : Float) = 0)
  | succ n ih =>
    obtain ⟨hf, -, -⟩ := repeated_le_counted hx h0 h1 n
    obtain ⟨hf', -, -⟩ := repeated_le_counted hx h0 h1 (n + 1)
    have hlevel : level (repeated x (n + 1)) = _ := (level_add hf hx).2
    rw [ih, ht, ← Int.natCast_add, rounded_natCast] at hlevel
    rw [isFinite_iff (isNaN_of_isFinite hf'), hlevel] at hf'
    rw [hlevel, addedUp]
    omega

theorem isNaN_meanOf {n : Nat} (hn : 0 < n) : (meanOf x n).isNaN = false ∧ 0.0 ≤ meanOf x n := by
  obtain ⟨hf, hlow, -⟩ := repeated_le_counted hx h0 h1 n
  have hpos := level_ofNat_pos hn
  exact ⟨isNaN_div hf (isNaN_ofNat n) hpos.ne', zero_le_div hf (isNaN_ofNat n) hlow hpos⟩

theorem level_meanOf {t n : Nat} (ht : level x = t) (hpos : 0 < t) (hn : 0 < n) (hlimit : n ≤ limit) :
    level (meanOf x n) = (min (nearestTo (addedUp t n) n) infiniteLevel : Nat) := by
  obtain ⟨hf, -, -⟩ := repeated_le_counted hx h0 h1 n
  have hsum := level_repeated hx h0 h1 ht n
  have hadded : 0 < addedUp t n := by
    obtain ⟨j, rfl⟩ : ∃ j, n = j + 1 := ⟨n - 1, by omega⟩
    have hself := nearest_level hx ht
    have hle : nearest t ≤ addedUp t (j + 1) := nearest_le_nearest (Nat.le_add_left _ _)
    omega
  exact level_div_ofNat hf hsum hadded hn hlimit

/-- **The mean of a number with itself falls short of it by no more than a part in `2^52` for each time it was
added.** -/
theorem le_meanOf {n : Nat} (hn : 0 < n) : 2 ^ 52 * level x ≤ 2 ^ 52 * level (meanOf x n) + n * level x := by
  obtain ⟨hnumber, hlow⟩ := isNaN_meanOf hx h0 h1 hn
  rw [zero_le_iff hnumber] at hlow
  rw [zero_le_iff (isNaN_of_isFinite hx)] at h0
  obtain ⟨t, ht⟩ := Int.eq_ofNat_of_zero_le h0
  rw [ht]
  rcases Nat.eq_zero_or_pos t with rfl | hpos
  · simpa using hlow
  rcases Nat.lt_or_ge n (2 ^ 52) with hlt | hge
  · have hlimit : n ≤ limit := Nat.le_trans (Nat.le_of_lt hlt) (by decide)
    have hself := nearest_level hx ht
    have hshort := le_nearestTo_addedUp hself hn
    rw [level_meanOf hx ((zero_le_iff (isNaN_of_isFinite hx)).2 (by omega)) h1 ht hpos hn hlimit]
    rw [isFinite_iff (isNaN_of_isFinite hx), ht, Int.natAbs_natCast] at hx
    have hle : 2 ^ 52 * t ≤ 2 ^ 52 * min (nearestTo (addedUp t n) n) infiniteLevel + n * t := by
      rcases Nat.le_total (nearestTo (addedUp t n) n) infiniteLevel with hm | hm
      · rwa [Nat.min_eq_left hm]
      · rw [Nat.min_eq_right hm]
        omega
    exact_mod_cast hle
  · -- so many numbers could as well have no mean
    have hle : (2 : Int) ^ 52 * t ≤ n * t := by exact_mod_cast Nat.mul_le_mul_right t hge
    omega

/-- **A number whose multiples are exact is at most its mean with itself.** -/
theorem le_meanOf_of_exact {t n : Nat} (ht : level x = t) (hn : 0 < n) (hlimit : n ≤ limit)
    (hexact : ∀ i, i ≤ n → nearest (i * t) = i * t) : x ≤ meanOf x n := by
  obtain ⟨hnumber, hlow⟩ := isNaN_meanOf hx h0 h1 hn
  rw [le_iff (isNaN_of_isFinite hx) hnumber, ht]
  rcases Nat.eq_zero_or_pos t with rfl | hpos
  · exact (zero_le_iff hnumber).1 hlow
  · have hsame : n * t * 1 = t * n := by ring
    have hquotient : nearestTo (n * t) n = t := by
      rw [nearestTo_congr hn Nat.one_pos hsame, nearestTo_one, nearest_level hx ht]
    rw [level_meanOf hx h0 h1 ht hpos hn hlimit, addedUp_of_exact hexact, hquotient]
    rw [isFinite_iff (isNaN_of_isFinite hx), ht, Int.natAbs_natCast] at hx
    omega

end Means

/-! ## Exact multiples -/

theorem nearest_of_le_places {m : Nat} (h : m ≤ 2 ^ 53) (k : Nat) : nearest (m * 2 ^ k) = m * 2 ^ k := by
  rcases Nat.lt_or_ge m (2 ^ 53) with hlt | hge
  · exact nearest_of_places hlt k
  · obtain rfl : m = 2 ^ 53 := Nat.le_antisymm h hge
    rw [show 2 ^ 53 * 2 ^ k = 2 ^ 52 * 2 ^ (k + 1) by rw [Nat.pow_succ]; ring]
    exact nearest_of_places (by decide) _

theorem exact_of_digits {m k n : Nat} (h : n * m ≤ 2 ^ 53) {i : Nat} (hi : i ≤ n) :
    nearest (i * (m * 2 ^ k)) = i * (m * 2 ^ k) := by
  rw [← Nat.mul_assoc]
  exact nearest_of_le_places (Nat.le_trans (Nat.mul_le_mul_right m hi) h) k

theorem exact_of_le_two {x : Float} {t : Nat} (hx : x.isFinite = true) (ht : level x = t) {i : Nat} (hi : i ≤ 2) :
    nearest (i * t) = i * t := by
  by_cases hzero : t = 0
  · rw [hzero, Nat.mul_zero]
    exact nearest_of_lt (by decide)
  · obtain ⟨s, m, e, hm, -, hc, hlevel⟩ := exists_finite hx (by omega)
    have hmag := natAbs_apply s (magnitude m e)
    rw [← hlevel, ht, Int.natAbs_natCast, magnitude] at hmag
    rw [hmag]
    obtain rfl | rfl | rfl : i = 0 ∨ i = 1 ∨ i = 2 := by omega
    · rw [Nat.zero_mul]
      exact nearest_of_lt (by decide)
    · rw [Nat.one_mul]
      exact nearest_of_places hc.1 _
    · rw [show 2 * (m * 2 ^ (e + 1074).toNat) = m * 2 ^ ((e + 1074).toNat + 1) by rw [Nat.pow_succ]; ring]
      exact nearest_of_places hc.1 _

/-- **Two numbers have the mean that they should**, and so do numbers with few digits. -/
theorem le_meanOf_of_few {x : Float} {n : Nat} (hx : x.isFinite = true) (h0 : 0.0 ≤ x) (h1 : x ≤ 1.0) (hn : 0 < n)
    (h : n ≤ 2 ∨ ∃ m k, level x = (m * 2 ^ k : Nat) ∧ n * m ≤ 2 ^ 53) : x ≤ meanOf x n := by
  obtain ⟨hnumber, hlow⟩ := isNaN_meanOf hx h0 h1 hn
  obtain ⟨t, ht⟩ := Int.eq_ofNat_of_zero_le ((zero_le_iff (isNaN_of_isFinite hx)).1 h0)
  rcases h with htwo | ⟨m, k, hm, hdigits⟩
  · have hlimit : n ≤ limit := Nat.le_trans htwo (by decide)
    exact le_meanOf_of_exact hx h0 h1 ht hn hlimit fun i hi => exact_of_le_two hx ht (Nat.le_trans hi htwo)
  · rcases Nat.eq_zero_or_pos m with rfl | hpos
    · rw [le_iff (isNaN_of_isFinite hx) hnumber, hm, Nat.zero_mul]
      exact (zero_le_iff hnumber).1 hlow
    · have hlimit : n ≤ limit := Nat.le_trans (Nat.le_mul_of_pos_right n hpos) hdigits
      exact le_meanOf_of_exact hx h0 h1 hm hn hlimit fun i hi => exact_of_digits hdigits hi

end PolicyGates.Double
