import Bies.Number
import Mathlib.Algebra.Order.Ring.Abs
import Mathlib.Algebra.Order.Ring.Int

/-!
# Whole numbers combined at compile time

`Exact a op b n` says, over all integers, that `n` is the result of an operation. Combining two numbers of 64
bits gives a whole number exactly where there is such a result and it has 64 bits; what is left is a float or
nothing.
-/

namespace Bies

def Fits (n : Int) : Prop := -2 ^ 63 ≤ n ∧ n < 2 ^ 63

theorem fits_toInt (n : Int64) : Fits n.toInt := ⟨n.le_toInt, n.toInt_lt⟩

theorem int64?_eq_some {n : Int} {r : Int64} : int64? n = some r ↔ n = r.toInt := by
  unfold int64?
  constructor
  · intro h
    split at h
    next hn =>
      obtain rfl := Option.some.inj h
      rw [Int64.toInt_ofInt_of_le hn.1 (Int.lt_add_one_of_le hn.2)]
    next => cases h
  · rintro rfl
    have hr := fits_toInt r
    rw [if_pos ⟨hr.1, Int.le_of_lt_add_one hr.2⟩, Int64.ofInt_toInt]

theorem int64?_eq_none {n : Int} : int64? n = none ↔ ¬Fits n := by
  unfold int64?
  rw [ite_eq_right_iff]
  constructor
  · intro h hn
    cases h ⟨hn.1, Int.le_of_lt_add_one hn.2⟩
  · intro h hn
    exact absurd ⟨hn.1, Int.lt_add_one_of_le hn.2⟩ h

namespace Number

/-- The result of an operation on whole numbers of any size. -/
inductive Exact : Int → String → Int → Int → Prop
  | sum (a b : Int) : Exact a "+" b (a + b)
  | difference (a b : Int) : Exact a "-" b (a - b)
  | product (a b : Int) : Exact a "*" b (a * b)
  | quotient {b : Int} (q : Int) (hb : b ≠ 0) : Exact (b * q) "/" b q
  | power (a : Int) {n : Nat} (hn : n < 2 ^ 32) : Exact a "**" n (a ^ n)

theorem not_fits_pow {a : Int} {n : Nat} (ha : 2 ≤ |a|) (hn : 64 ≤ n) : ¬Fits (a ^ n) := by
  have hpow : 2 ^ 64 ≤ |a ^ n| :=
    calc (2 : Int) ^ 64 ≤ 2 ^ n := pow_le_pow_right₀ (by decide) hn
      _ ≤ |a| ^ n := pow_le_pow_left₀ (by decide) ha n
      _ = |a ^ n| := (abs_pow a n).symm
  rintro ⟨hlow, hhigh⟩
  rcases abs_cases (a ^ n) with h | h <;> omega

theorem power?_eq (a : Int) (n : Nat) : power? a n = int64? (a ^ n) := by
  unfold power?
  split
  next ha =>
    rw [ha]
    cases n with
    | zero => rfl
    | succ n => rw [zero_pow n.succ_ne_zero, if_neg n.succ_ne_zero]
  split
  next ha =>
    rcases ha with rfl | rfl
    · rw [one_pow, ite_self]
    · rcases Nat.even_or_odd n with hn | hn
      · rw [hn.neg_one_pow, if_pos (Nat.even_iff.mp hn)]
      · rw [hn.neg_one_pow, if_neg (by rw [Nat.odd_iff.mp hn]; decide)]
  next hzero hone =>
    split
    · rfl
    next hn =>
      refine (int64?_eq_none.mpr (not_fits_pow ?_ (Nat.le_of_not_lt hn))).symm
      rcases abs_cases a with h | h <;> omega

theorem combineFloat?_ne_int (a : Float) (op : String) (b : Float) (r : Int64) :
    combineFloat? a op b ≠ some (.int r) := by
  have hfinite : ∀ x : Float, (if x.isFinite then some (float x) else none) ≠ some (.int r) := by
    intro x h
    split at h <;> cases h
  unfold combineFloat?
  dsimp only
  split
  case h_4 =>
    split
    · exact (Option.some_ne_none _).symm
    · exact hfinite _
  case h_6 => exact (Option.some_ne_none _).symm
  all_goals exact hfinite _

section
variable {a b : Int64} {op : String}

theorem toInt_ne_zero (h : b ≠ 0) : b.toInt ≠ 0 := fun hb => h (Int64.toInt_inj.mp hb)

theorem combineInt?_power (a b : Int64) : combineInt? a "**" b =
    if b.toInt < 0 then combineFloat? a.toFloat "**" b.toFloat
    else if b.toInt.toNat < 2 ^ 32 then (int64? (a.toInt ^ b.toInt.toNat)).map .int
    else none := by
  have hneg : (b < 0) = (b.toInt < 0) := propext Int64.lt_iff_toInt_lt
  simp only [← power?_eq, ← hneg]
  rfl

theorem combine?_of_exact {n : Int} (h : Exact a.toInt op b.toInt n) :
    combine? (.int a) op (.int b) = (int64? n).map .int := by
  show combineInt? a op b = _
  generalize hx : a.toInt = x at h
  generalize hy : b.toInt = y at h
  cases h with
  | sum => rw [← hx, ← hy]; rfl
  | difference => rw [← hx, ← hy]; rfl
  | product => rw [← hx, ← hy]; rfl
  | quotient q hzero =>
    have hb : b ≠ 0 := fun h => hzero (by rw [← hy, h]; rfl)
    show (if b = 0 then none else if a.toInt % b.toInt = 0 then (int64? (a.toInt / b.toInt)).map Number.int
      else _) = _
    rw [if_neg hb, hx, hy, if_pos (Int.mul_emod_right y n), Int.mul_ediv_cancel_left n hzero]
  | @power _ n hn =>
    rw [combineInt?_power, hx, hy, if_neg (Int.not_lt.mpr (Int.natCast_nonneg n)), Int.toNat_natCast, if_pos hn]

theorem exact_of_combine? {r : Int64} (h : combine? (.int a) op (.int b) = some (.int r)) :
    Exact a.toInt op b.toInt r.toInt := by
  have hfit : ∀ {n : Int}, (int64? n).map Number.int = some (.int r) → n = r.toInt := by
    intro n hn
    obtain ⟨m, hm, heq⟩ := Option.map_eq_some_iff.mp hn
    cases heq
    exact int64?_eq_some.mp hm
  change combineInt? a op b = _ at h
  unfold combineInt? at h
  split at h
  case h_1 => exact hfit h ▸ .sum _ _
  case h_2 => exact hfit h ▸ .difference _ _
  case h_3 => exact hfit h ▸ .product _ _
  case h_4 =>
    split at h
    · cases h
    next hb =>
      split at h
      next hdvd =>
        have hquotient : a.toInt = b.toInt * r.toInt := by
          rw [← hfit h, Int.mul_ediv_cancel' (Int.dvd_of_emod_eq_zero hdvd)]
        rw [hquotient]
        exact .quotient _ (toInt_ne_zero hb)
      next => exact absurd h (combineFloat?_ne_int _ _ _ _)
  case h_5 =>
    change combineInt? a "**" b = _ at h
    rw [combineInt?_power] at h
    split at h
    · exact absurd h (combineFloat?_ne_int _ _ _ _)
    next hneg =>
      obtain ⟨n, hn⟩ := Int.eq_ofNat_of_zero_le (Int.not_lt.mp hneg)
      rw [hn, Int.toNat_natCast] at h
      split at h
      next hsize =>
        rw [hn, ← hfit h]
        exact .power _ hsize
      next => cases h
  case h_6 => cases h

end

/-- Whole numbers are combined exactly, or to no whole number. -/
theorem combine?_int (a b : Int64) (op : String) :
    (∀ r : Int64, combine? (.int a) op (.int b) = some (.int r) ↔ Exact a.toInt op b.toInt r.toInt) ∧
    (∀ n, Exact a.toInt op b.toInt n → ¬Fits n → combine? (.int a) op (.int b) = none) ∧
    (op = "/" → b = 0 ∨ a = Int64.minValue ∧ b = -1 → combine? (.int a) op (.int b) = none) ∧
    (op = "**" → 2 ^ 32 ≤ b.toInt → combine? (.int a) op (.int b) = none) ∧
    (op ∉ ["+", "-", "*", "/", "**"] → combine? (.int a) op (.int b) = none) := by
  refine ⟨fun r => ⟨exact_of_combine?, fun h => ?_⟩, fun n h hn => ?_, ?_, ?_, fun hop => ?_⟩
  · rw [combine?_of_exact h, int64?_eq_some.mpr rfl]
    rfl
  · rw [combine?_of_exact h, int64?_eq_none.mpr hn]
    rfl
  · rintro rfl (rfl | ⟨rfl, rfl⟩)
    · rfl
    · rfl
  · rintro rfl hb
    show combineInt? a "**" b = none
    rw [combineInt?_power, if_neg (by omega), if_neg (by omega)]
  · show combineInt? a op b = none
    unfold combineInt?
    split
    case h_6 => rfl
    all_goals exact absurd (by simp) hop

end Number
end Bies
