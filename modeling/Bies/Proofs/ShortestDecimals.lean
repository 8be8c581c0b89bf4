import Bies.Number.Shortest
import Mathlib.Algebra.Order.Field.Power
import Mathlib.Data.Rat.Cast.Order
import Mathlib.Order.Monotone.Basic
import Mathlib.Tactic.FieldSimp
import Mathlib.Tactic.Linarith
import Mathlib.Tactic.NormNum
import Mathlib.Tactic.Positivity
import Mathlib.Tactic.Ring

/-!
# Decimals that read back

The floats without a sign are numbered by their bits. The interval of decimals that read back as a float ends where that
of the next one begins, and the end they share belongs to the one with the even mantissa. So a decimal reads back as one
float only. With seventeen digits some decimal does, hence the shortest one exists.
-/

namespace Bies

def Decimal.value (d : Decimal) : ℚ := d.digits * 10 ^ d.exponent

theorem Decimal.value_strip (limit : Nat) (d : Decimal) : (d.strip limit).value = d.value := by
  induction limit generalizing d with
  | zero => rfl
  | succ limit ih =>
    unfold strip
    split
    next h =>
      have hdigits : (d.digits : ℚ) = (d.digits / 10 : Nat) * 10 := by
        exact_mod_cast (Nat.div_mul_cancel (Nat.dvd_of_mod_eq_zero h.2)).symm
      rw [ih, value, value, hdigits, zpow_add_one₀ (by norm_num)]
      ring
    next => rfl

namespace Binary

/-! ## Intervals -/

def quarter (x : Binary) : ℚ := 2 ^ (x.exponent - 2)

def lower (x : Binary) : ℚ := x.low * x.quarter

def upper (x : Binary) : ℚ := x.high * x.quarter

theorem quarter_pos (x : Binary) : 0 < x.quarter := by
  unfold quarter
  positivity

theorem lower_lt_upper (x : Binary) : x.lower < x.upper := by
  have hlt : x.low < x.high := by
    unfold low high
    omega
  exact mul_lt_mul_of_pos_right (by exact_mod_cast hlt) x.quarter_pos

theorem zpow_mul_pow_toNat {b : ℚ} (hb : b ≠ 0) (e : Int) : b ^ e * b ^ (-e).toNat = b ^ e.toNat := by
  rw [← zpow_natCast, ← zpow_natCast, ← zpow_add₀ hb]
  congr 1
  omega

theorem exists_scale (x : Binary) (k : Int) :
    ∃ c : ℚ, 0 < c ∧ ((x.scale k).1 : ℚ) = x.quarter * c ∧ ((x.scale k).2 : ℚ) = 10 ^ k * c := by
  have htwo := zpow_mul_pow_toNat (two_ne_zero' ℚ) (x.exponent - 2)
  have hten := zpow_mul_pow_toNat (show (10 : ℚ) ≠ 0 by norm_num) k
  refine ⟨2 ^ (-(x.exponent - 2)).toNat * 10 ^ (-k).toNat, by positivity, ?_, ?_⟩
  · simp only [scale, Nat.pow_eq, Nat.cast_mul, Nat.cast_pow, Nat.cast_ofNat, quarter]
    rw [← htwo]
    ring
  · simp only [scale, Nat.pow_eq, Nat.cast_mul, Nat.cast_pow, Nat.cast_ofNat]
    rw [← hten]
    ring

section
variable {x y : Binary} {k : Int} {m n f : Nat} {v : ℚ}

theorem scale_le :
    m * (x.scale k).1 ≤ n * (x.scale k).2 ↔ m * x.quarter ≤ n * (10 : ℚ) ^ k := by
  obtain ⟨c, hc, ha, hb⟩ := x.exists_scale k
  rw [← Nat.cast_le (α := ℚ), Nat.cast_mul, Nat.cast_mul, ha, hb, ← mul_assoc, ← mul_assoc,
    mul_le_mul_iff_left₀ hc]

theorem le_scale :
    n * (x.scale k).2 ≤ m * (x.scale k).1 ↔ n * (10 : ℚ) ^ k ≤ m * x.quarter := by
  obtain ⟨c, hc, ha, hb⟩ := x.exists_scale k
  rw [← Nat.cast_le (α := ℚ), Nat.cast_mul, Nat.cast_mul, ha, hb, ← mul_assoc, ← mul_assoc,
    mul_le_mul_iff_left₀ hc]

/-- The number is in the interval of `x`, whose ends belong to it if the mantissa is even. -/
def Contains (x : Binary) (v : ℚ) : Prop :=
  x.lower ≤ v ∧ v ≤ x.upper ∧ (x.mantissa % 2 ≠ 0 → v ≠ x.lower ∧ v ≠ x.upper)

theorem readsBack_iff : x.readsBack k n = true ↔ x.Contains (n * 10 ^ k) := by
  have hlow : x.low * (x.scale k).1 ≤ n * (x.scale k).2 ↔ x.lower ≤ n * 10 ^ k := scale_le
  have hlow' : n * (x.scale k).2 ≤ x.low * (x.scale k).1 ↔ n * 10 ^ k ≤ x.lower := le_scale
  have hhigh : n * (x.scale k).2 ≤ x.high * (x.scale k).1 ↔ n * 10 ^ k ≤ x.upper := le_scale
  have hhigh' : x.high * (x.scale k).1 ≤ n * (x.scale k).2 ↔ x.upper ≤ n * 10 ^ k := scale_le
  unfold readsBack Contains
  dsimp only
  by_cases heven : x.mantissa % 2 = 0
  · simp only [heven, if_true, Bool.and_eq_true, decide_eq_true_eq, hlow, hhigh, ne_eq, not_true_eq_false,
      false_imp_iff, and_true]
  · simp only [heven, if_false, Bool.and_eq_true, decide_eq_true_eq, ← not_le, hlow', hhigh',
      ne_eq, not_false_eq_true,
      true_imp_iff]
    constructor
    · rintro ⟨hl, hh⟩
      exact ⟨(not_le.mp hl).le, (not_le.mp hh).le, (not_le.mp hl).ne', (not_le.mp hh).ne⟩
    · rintro ⟨hl, hh, hl', hh'⟩
      exact ⟨not_le.mpr (lt_of_le_of_ne hl (Ne.symm hl')), not_le.mpr (lt_of_le_of_ne hh hh')⟩

/-! ## Neighbours -/

def ofOrdinal (n : Nat) : Binary :=
  if n / hiddenBit = 0 then ⟨n % hiddenBit, -1074, false⟩
  else ⟨hiddenBit + n % hiddenBit, (n / hiddenBit : Nat) - 1075, n % hiddenBit = 0 && n / hiddenBit > 1⟩

theorem ofFloat_eq_ofOrdinal (x : Float) : ofFloat x = ofOrdinal (x.toBits.toNat % 2 ^ 63) := by
  have hfraction : x.toBits.toNat % 2 ^ 63 % hiddenBit = x.toBits.toNat % hiddenBit := by
    unfold hiddenBit
    omega
  have hexponent : x.toBits.toNat % 2 ^ 63 / hiddenBit = x.toBits.toNat / hiddenBit % 0x800 := by
    unfold hiddenBit
    omega
  unfold ofFloat ofOrdinal
  rw [hfraction, hexponent]

theorem mantissa_ofOrdinal (n : Nat) : (ofOrdinal n).mantissa % 2 = n % 2 := by
  unfold ofOrdinal hiddenBit
  split
  · show n % 0x10000000000000 % 2 = n % 2
    omega
  · show (0x10000000000000 + n % 0x10000000000000) % 2 = n % 2
    omega

theorem ofOrdinal_small (hf : f < hiddenBit) : ofOrdinal f = ⟨f, -1074, false⟩ := by
  rw [ofOrdinal, if_pos (Nat.div_eq_of_lt hf), Nat.mod_eq_of_lt hf]

theorem ofOrdinal_normal (e : Nat) (hf : f < hiddenBit) :
    ofOrdinal (hiddenBit * (e + 1) + f) = ⟨hiddenBit + f, (e : Int) - 1074, f = 0 && e > 0⟩ := by
  have hdiv : (hiddenBit * (e + 1) + f) / hiddenBit = e + 1 := by
    unfold hiddenBit at *
    omega
  have hmod : (hiddenBit * (e + 1) + f) % hiddenBit = f := by
    unfold hiddenBit at *
    omega
  have hexponent : ((e + 1 : Nat) : Int) - 1075 = e - 1074 := by omega
  rw [ofOrdinal, hdiv, hmod, if_neg (Nat.succ_ne_zero e), hexponent]
  simp

theorem ordinal_cases (n : Nat) :
    n < hiddenBit ∨ ∃ e f, f < hiddenBit ∧ n = hiddenBit * (e + 1) + f := by
  by_cases h : n < hiddenBit
  · exact .inl h
  · refine .inr ⟨n / hiddenBit - 1, n % hiddenBit, Nat.mod_lt n (by decide), ?_⟩
    unfold hiddenBit at *
    omega

theorem upper_eq_lower (hexponent : y.exponent = x.exponent) (hmantissa : y.mantissa = x.mantissa + 1)
    (hcloser : y.closerBelow = false) : x.upper = y.lower := by
  have hlow : x.high = y.low := by
    rw [high, low, middle, middle, hmantissa, hcloser, if_neg Bool.false_ne_true]
    omega
  rw [upper, lower, quarter, quarter, hexponent, hlow]

/-- Where the last place becomes twice as large, the next smaller float is nearer. -/
theorem upper_eq_lower_of_closer (hexponent : y.exponent = x.exponent + 1)
    (hmantissa : 2 * y.mantissa = x.mantissa + 1) (hcloser : y.closerBelow = true) : x.upper = y.lower := by
  have hlow : x.high = 2 * y.low := by
    rw [high, low, middle, middle, hcloser, if_pos rfl]
    omega
  have hquarter : y.quarter = x.quarter * 2 := by
    rw [quarter, quarter, hexponent, ← zpow_add_one₀ two_ne_zero]
    ring_nf
  rw [upper, lower, hquarter, hlow]
  push_cast
  ring

theorem upper_ofOrdinal (n : Nat) : (ofOrdinal n).upper = (ofOrdinal (n + 1)).lower := by
  have hbit : 0 < hiddenBit := by decide
  rcases ordinal_cases n with hn | ⟨e, f, hf, rfl⟩
  · rw [ofOrdinal_small hn]
    by_cases hlast : n + 1 < hiddenBit
    · rw [ofOrdinal_small hlast]
      exact upper_eq_lower rfl rfl rfl
    · have hnext : n + 1 = hiddenBit * (0 + 1) + 0 := by omega
      rw [hnext, ofOrdinal_normal 0 hbit]
      refine upper_eq_lower rfl ?_ rfl
      dsimp only
      omega
  · rw [ofOrdinal_normal e hf]
    by_cases hlast : f + 1 < hiddenBit
    · rw [add_assoc, ofOrdinal_normal e hlast]
      exact upper_eq_lower rfl rfl (by simp)
    · have hnext : hiddenBit * (e + 1) + f + 1 = hiddenBit * (e + 1 + 1) + 0 := by
        rw [add_assoc, show f + 1 = hiddenBit by omega, mul_add hiddenBit (e + 1)]
        ring
      rw [hnext, ofOrdinal_normal (e + 1) hbit]
      refine upper_eq_lower_of_closer ?_ ?_ (by simp)
      · dsimp only
        omega
      · dsimp only
        omega

theorem lower_strictMono : StrictMono fun n => (ofOrdinal n).lower := by
  refine strictMono_nat_of_lt_succ fun n => ?_
  rw [← upper_ofOrdinal]
  exact lower_lt_upper _

theorem eq_of_contains (hm : (ofOrdinal m).Contains v) (hn : (ofOrdinal n).Contains v) : m = n := by
  by_contra hne
  wlog hlt : m < n generalizing m n
  · exact this hn hm (Ne.symm hne) (by omega)
  have hle : (ofOrdinal (m + 1)).lower ≤ (ofOrdinal n).lower := lower_strictMono.monotone hlt
  have hupper : v ≤ (ofOrdinal (m + 1)).lower := upper_ofOrdinal m ▸ hm.2.1
  have hv : v = (ofOrdinal (m + 1)).lower := le_antisymm hupper (hle.trans hn.1)
  have hv' : v = (ofOrdinal n).lower := le_antisymm (hupper.trans hle) hn.1
  have hnext : m + 1 = n := lower_strictMono.injective (hv.symm.trans hv')
  by_cases heven : m % 2 = 0
  · have hodd : (ofOrdinal n).mantissa % 2 ≠ 0 := by
      rw [mantissa_ofOrdinal]
      omega
    exact (hn.2.2 hodd).1 hv'
  · have hodd : (ofOrdinal m).mantissa % 2 ≠ 0 := by rwa [mantissa_ofOrdinal]
    exact (hm.2.2 hodd).2 (hv.trans (upper_ofOrdinal m).symm)

/-! ## Seventeen digits -/

structure Proper (x : Binary) : Prop where
  pos : 0 < x.mantissa
  lt : x.mantissa < 2 * hiddenBit
  closer : x.closerBelow = true → x.mantissa = hiddenBit
  least : -1074 ≤ x.exponent

theorem proper_ofOrdinal (hn : 0 < n) : (ofOrdinal n).Proper := by
  have hbit : 0 < hiddenBit := by decide
  rcases ordinal_cases n with hsmall | ⟨e, f, hf, rfl⟩
  · rw [ofOrdinal_small hsmall]
    exact ⟨hn, by dsimp only; omega, nofun, le_refl _⟩
  · rw [ofOrdinal_normal e hf]
    refine ⟨by dsimp only; omega, by dsimp only; omega, fun h => ?_, by dsimp only; omega⟩
    simp only [Bool.and_eq_true, decide_eq_true_eq] at h
    rw [h.1, add_zero]

def value (x : Binary) : ℚ := x.middle * x.quarter

theorem scale_pos (x : Binary) (k : Int) : 0 < (x.scale k).2 := by
  obtain ⟨c, hc, -, hb⟩ := x.exists_scale k
  have : (0 : ℚ) < (x.scale k).2 := by
    rw [hb]
    positivity
  exact_mod_cast this

def units (x : Binary) (k : Int) : Nat := x.middle * (x.scale k).1 / (x.scale k).2

theorem units_le_value (x : Binary) (k : Int) : x.units k * 10 ^ k ≤ x.value :=
  le_scale.mp (Nat.div_mul_le_self _ _)

theorem value_lt_units (x : Binary) (k : Int) : x.value < ((x.units k + 1 : Nat) : ℚ) * 10 ^ k := by
  refine not_le.mp (mt le_scale.mpr (not_le.mpr ?_))
  exact (Nat.div_lt_iff_lt_mul (x.scale_pos k)).mp (Nat.lt_succ_self _)

theorem contains_of_lt (hlower : x.lower < v) (hupper : v < x.upper) : x.Contains v :=
  ⟨hlower.le, hupper.le, fun _ => ⟨hlower.ne', hupper.ne⟩⟩

theorem Proper.lower_lt (h : x.Proper) : x.lower < x.value := by
  have := h.pos
  refine mul_lt_mul_of_pos_right ?_ x.quarter_pos
  have : x.low < x.middle := by
    unfold low middle
    split <;> omega
  exact_mod_cast this

theorem value_lt_upper (x : Binary) : x.value < x.upper := by
  refine mul_lt_mul_of_pos_right ?_ x.quarter_pos
  have : x.middle < x.high := by
    unfold high
    omega
  exact_mod_cast this

theorem exists_nearest?
    (h : x.readsBack k (x.units k) = true ∨ x.readsBack k (x.units k + 1) = true) : ∃ n, x.nearest? k = some n := by
  have hunits : x.middle * (x.scale k).1 / (x.scale k).2 = x.units k := rfl
  unfold nearest?
  dsimp only
  rw [hunits]
  split
  next => exact ⟨_, rfl⟩
  next => exact ⟨_, rfl⟩
  next => exact ⟨_, rfl⟩
  next hbelow habove =>
    rw [hbelow, habove] at h
    simp at h

theorem Proper.exists_nearest? (h : x.Proper) (hk : 10 ^ k < x.upper - x.lower) :
    ∃ n, x.nearest? k = some n := by
  have hbelow := x.units_le_value k
  have habove := x.value_lt_units k
  have hlower := h.lower_lt
  have hupper := x.value_lt_upper
  apply Binary.exists_nearest?
  by_cases hmiss : x.units k * 10 ^ k ≤ x.lower
  · -- The step below is too low, so the one above is not too high.
    refine .inr (readsBack_iff.mpr (contains_of_lt (hlower.trans habove) ?_))
    push_cast
    linarith
  · exact .inl (readsBack_iff.mpr (contains_of_lt (not_le.mp hmiss) (hbelow.trans_lt hupper)))

theorem contains_of_nearest? (h : x.nearest? k = some n) :
    x.Contains (n * 10 ^ k) := by
  rw [← readsBack_iff]
  unfold nearest? at h
  dsimp only at h
  split at h <;> cases h
  · split <;> assumption
  · assumption
  · assumption

theorem two_pow_le_ten_pow : (2 : ℚ) ^ 1074 ≤ 10 ^ 400 :=
  calc (2 : ℚ) ^ 1074 = (2 ^ 3) ^ 358 := by rw [← pow_mul]
    _ ≤ 10 ^ 358 := pow_le_pow_left₀ (by norm_num) (by norm_num) _
    _ ≤ 10 ^ 400 := pow_le_pow_right₀ (by norm_num) (by norm_num)

def places (x : Binary) : Nat := if x.exponent < 0 then 400 else 0

theorem Proper.places_le (h : x.Proper) : (10 : ℚ) ^ (-x.places : Int) ≤ x.value := by
  have hvalue : x.value = x.mantissa * 2 ^ x.exponent := by
    rw [value, middle, quarter, zpow_sub₀ two_ne_zero]
    push_cast
    ring
  have hmantissa : (2 : ℚ) ^ x.exponent ≤ x.value := by
    rw [hvalue]
    exact le_mul_of_one_le_left (by positivity) (by exact_mod_cast h.pos)
  refine le_trans ?_ hmantissa
  unfold places
  split
  · have hleast : (2 : ℚ) ^ (-1074 : Int) ≤ 2 ^ x.exponent := zpow_le_zpow_right₀ (by norm_num) h.least
    refine le_trans ?_ hleast
    rw [zpow_neg, zpow_neg]
    exact inv_anti₀ (by positivity) two_pow_le_ten_pow
  next hnonneg =>
    rw [Nat.cast_zero, neg_zero, zpow_zero]
    exact one_le_zpow₀ (by norm_num) (not_lt.mp hnonneg)

theorem magnitude_eq (x : Binary) : x.magnitude = (Nat.toDigits 10 (x.units (-x.places))).length - x.places := rfl

theorem pow_length_digits_le (hn : 0 < n) : 10 ^ ((Nat.toDigits 10 n).length - 1) ≤ n := by
  by_cases hlength : (Nat.toDigits 10 n).length = 1
  · rw [hlength]
    exact hn
  · have hpos := Nat.length_toDigits_pos (b := 10) (n := n)
    refine not_lt.mp fun hlt => ?_
    have := (Nat.length_toDigits_le_iff (by decide) (by omega)).mpr hlt
    omega

theorem Proper.magnitude_le (h : x.Proper) : (10 : ℚ) ^ (x.magnitude - 1) ≤ x.value := by
  have hunits : 0 < x.units (-x.places) := by
    refine Nat.div_pos ?_ (x.scale_pos _)
    rw [← one_mul (x.scale _).2, le_scale, Nat.cast_one, one_mul]
    exact h.places_le
  have hexponent :
      x.magnitude - 1 = ((Nat.toDigits 10 (x.units (-x.places))).length - 1 : Nat) + (-x.places : Int) := by
    have := Nat.length_toDigits_pos (b := 10) (n := x.units (-x.places))
    rw [magnitude_eq]
    omega
  have hdigits : (10 : ℚ) ^ ((Nat.toDigits 10 (x.units (-x.places))).length - 1) ≤ x.units (-x.places) := by
    exact_mod_cast pow_length_digits_le hunits
  calc (10 : ℚ) ^ (x.magnitude - 1)
      = 10 ^ ((Nat.toDigits 10 (x.units (-x.places))).length - 1) * 10 ^ (-x.places : Int) := by
        rw [hexponent, zpow_add₀ (by norm_num), zpow_natCast]
    _ ≤ x.units (-x.places) * 10 ^ (-x.places : Int) := mul_le_mul_of_nonneg_right hdigits (by positivity)
    _ ≤ x.value := x.units_le_value _

theorem Proper.width (h : x.Proper) : (10 : ℚ) ^ (x.magnitude - 17) < x.upper - x.lower := by
  have hwidth : x.middle + x.low * 10 ^ 16 < x.high * 10 ^ 16 := by
    have hpos := h.pos
    have hlt := h.lt
    unfold high low middle
    unfold hiddenBit at hlt
    split
    next hcloser =>
      rw [h.closer hcloser, hiddenBit]
      omega
    next => omega
  have hwidth : (x.middle : ℚ) + x.low * 10 ^ 16 < x.high * 10 ^ 16 := by exact_mod_cast hwidth
  have hstep : (10 : ℚ) ^ (x.magnitude - 1) = 10 ^ (x.magnitude - 17) * 10 ^ 16 := by
    rw [← zpow_natCast, ← zpow_add₀ (by norm_num)]
    congr 1
    omega
  have hvalue := hstep ▸ h.magnitude_le
  have hquarter := mul_lt_mul_of_pos_right hwidth x.quarter_pos
  unfold value at hvalue
  unfold upper lower
  linarith

/-- The shortest decimal reads back. -/
theorem Proper.contains_shortest (h : x.Proper) : x.Contains x.shortest.value := by
  unfold shortest
  dsimp only
  rw [Decimal.value_strip]
  generalize hfound : List.findSome? _ (List.range 17) = found
  cases found with
  | some d =>
    obtain ⟨n, -, hd⟩ := List.exists_of_findSome?_eq_some hfound
    obtain ⟨digits, hdigits, rfl⟩ := Option.map_eq_some_iff.mp hd
    exact contains_of_nearest? hdigits
  | none =>
    -- The last place that is tried is the seventeenth.
    obtain ⟨n, hn⟩ := h.exists_nearest? h.width
    have hlast := List.findSome?_eq_none_iff.mp hfound 16 (by decide)
    rw [show x.magnitude - ((16 : Nat) + 1) = x.magnitude - 17 by omega, hn] at hlast
    cases hlast

end

end Binary
end Bies
