import Bies.Proofs.NumberTexts
import Bies.Proofs.ShortestDecimals

/-!
# Texts of floats

Floats with one text are one float. A text gives back the value of its decimal, and that value reads back as one float
without a sign only.
-/

namespace Bies

/-! ## Numerals -/

structure Numeral where
  whole : List Char
  fraction : List Char
  exponent : Int
  whole_ne_nil : whole ≠ []
  isDigit_whole : ∀ c ∈ whole, c.isDigit = true
  isDigit_fraction : ∀ c ∈ fraction, c.isDigit = true

namespace Numeral

def fractionText (n : Numeral) : List Char := if n.fraction = [] then [] else '.' :: n.fraction

def exponentText (n : Numeral) : List Char := if n.exponent = 0 then [] else 'e' :: n.exponent.repr.toList

def text (n : Numeral) : List Char := n.whole ++ (n.fractionText ++ n.exponentText)

def value (n : Numeral) : ℚ := Nat.ofDigitChars 10 (n.whole ++ n.fraction) 0 * 10 ^ (n.exponent - n.fraction.length)

theorem head?_exponentText (n : Numeral) : ∀ c ∈ n.exponentText.head?, c = 'e' := by
  unfold exponentText
  split <;> simp

theorem head?_fractionText (n : Numeral) : ∀ c ∈ (n.fractionText ++ n.exponentText).head?, c = '.' ∨ c = 'e' := by
  unfold fractionText
  split
  · exact fun c hc => .inr (n.head?_exponentText c hc)
  · simp

theorem exponent_of_text {m n : Numeral} (h : m.exponentText = n.exponentText) : m.exponent = n.exponent := by
  unfold exponentText at h
  split at h <;> split at h
  next hm hn => rw [hm, hn]
  next => cases h
  next => cases h
  next => exact eq_of_toList_int (List.cons.inj h).2

theorem not_isDigit_exponentText (n : Numeral) : ∀ c ∈ n.exponentText.head?, c.isDigit = false := by
  intro c hc
  rw [n.head?_exponentText c hc]
  rfl

theorem fraction_of_text {m n : Numeral} (h : m.fractionText ++ m.exponentText = n.fractionText ++ n.exponentText) :
    m.fraction = n.fraction ∧ m.exponentText = n.exponentText := by
  by_cases hm : m.fraction = [] <;> by_cases hn : n.fraction = []
  · simp only [fractionText, hm, hn, if_true, List.nil_append] at h
    exact ⟨hm.trans hn.symm, h⟩
  · simp only [fractionText, hm, hn, if_true, if_false, List.nil_append] at h
    have := m.head?_exponentText '.' (by rw [h]; rfl)
    cases this
  · simp only [fractionText, hm, hn, if_true, if_false, List.nil_append] at h
    have := n.head?_exponentText '.' (by rw [← h]; rfl)
    cases this
  · simp only [fractionText, hm, hn, if_false, List.cons_append, List.cons.injEq, true_and] at h
    exact eq_of_run_append_eq m.isDigit_fraction n.isDigit_fraction m.not_isDigit_exponentText
      n.not_isDigit_exponentText h

theorem value_of_text {m n : Numeral} (h : m.text = n.text) : m.value = n.value := by
  have hstop : ∀ n : Numeral, ∀ c ∈ (n.fractionText ++ n.exponentText).head?, c.isDigit = false := by
    intro n c hc
    rcases n.head?_fractionText c hc with rfl | rfl <;> rfl
  obtain ⟨hwhole, hrest⟩ := eq_of_run_append_eq m.isDigit_whole n.isDigit_whole (hstop m) (hstop n) h
  obtain ⟨hfraction, hexponent⟩ := fraction_of_text hrest
  rw [value, value, hwhole, hfraction, exponent_of_text hexponent]

theorem exists_text (n : Numeral) : ∃ c cs, n.text = c :: cs ∧ c.isDigit = true := by
  obtain ⟨c, cs, hwhole⟩ := List.exists_cons_of_ne_nil n.whole_ne_nil
  refine ⟨c, cs ++ (n.fractionText ++ n.exponentText), ?_, n.isDigit_whole c ?_⟩
  · rw [text, hwhole, List.cons_append]
  · rw [hwhole]
    exact List.mem_cons_self

/-! The ways in which the digits of a number `d` are set. -/

theorem isDigit_of_mem_zeros {k : Nat} {c : Char} (h : c ∈ List.replicate k '0') : c.isDigit = true := by
  rw [List.eq_of_mem_replicate h]
  rfl

def padded (d k : Nat) : Numeral where
  whole := Nat.toDigits 10 d ++ List.replicate k '0'
  fraction := ['0']
  exponent := 0
  whole_ne_nil := by simp
  isDigit_whole := List.forall_mem_append.mpr ⟨fun _ => isDigit_of_mem_digits, fun _ => isDigit_of_mem_zeros⟩
  isDigit_fraction := List.all_eq_true.mp rfl

def pointed (d k : Nat) (exponent : Int) : Numeral where
  whole := (Nat.toDigits 10 d).take (k + 1)
  fraction := (Nat.toDigits 10 d).drop (k + 1)
  exponent := exponent
  whole_ne_nil := by simp
  isDigit_whole _ h := isDigit_of_mem_digits (List.mem_of_mem_take h)
  isDigit_fraction _ h := isDigit_of_mem_digits (List.mem_of_mem_drop h)

def leading (d k : Nat) : Numeral where
  whole := ['0']
  fraction := List.replicate k '0' ++ Nat.toDigits 10 d
  exponent := 0
  whole_ne_nil := by simp
  isDigit_whole := List.all_eq_true.mp rfl
  isDigit_fraction := List.forall_mem_append.mpr ⟨fun _ => isDigit_of_mem_zeros, fun _ => isDigit_of_mem_digits⟩

theorem fractionText_pointed (d k : Nat) (exponent : Int) : (pointed d k exponent).fractionText =
    if (Nat.toDigits 10 d).length ≤ k + 1 then [] else '.' :: (Nat.toDigits 10 d).drop (k + 1) := by
  simp only [fractionText, pointed, List.drop_eq_nil_iff]

theorem value_padded (d k : Nat) : (padded d k).value = d * 10 ^ k := by
  have hdigits : Nat.ofDigitChars 10 ((padded d k).whole ++ (padded d k).fraction) 0 = 10 ^ (k + 1) * d := by
    have hzeros : (padded d k).whole ++ (padded d k).fraction = Nat.toDigits 10 d ++ List.replicate (k + 1) '0' := by
      simp [padded, List.replicate_succ']
    rw [hzeros, Nat.ofDigitChars_append, Nat.ofDigitChars_ten_toDigits, Nat.ofDigitChars_replicate_zero]
  have hexponent : (padded d k).exponent - (padded d k).fraction.length = -1 := rfl
  rw [value, hdigits, hexponent, zpow_neg_one]
  push_cast
  ring

theorem value_pointed {d k : Nat} (exponent : Int) (hk : k < (Nat.toDigits 10 d).length) :
    (pointed d k exponent).value = d * 10 ^ (exponent - ((Nat.toDigits 10 d).length - (k + 1))) := by
  rw [value]
  simp only [pointed, List.take_append_drop, Nat.ofDigitChars_ten_toDigits, List.length_drop]
  congr 2
  omega

theorem value_leading (d k : Nat) : (leading d k).value = d * 10 ^ (-(k + (Nat.toDigits 10 d).length) : Int) := by
  have hdigits : Nat.ofDigitChars 10 ((leading d k).whole ++ (leading d k).fraction) 0 = d := by
    have hzeros : (leading d k).whole ++ (leading d k).fraction = List.replicate (k + 1) '0' ++ Nat.toDigits 10 d := by
      simp [leading, List.replicate_succ]
    rw [hzeros, Nat.ofDigitChars_append, Nat.ofDigitChars_replicate_zero, mul_zero, Nat.ofDigitChars_ten_toDigits]
  rw [value, hdigits]
  simp [leading]

end Numeral

/-- The text of a decimal is a numeral of its value. -/
theorem Decimal.exists_numeral (d : Decimal) : ∃ n : Numeral, n.text = d.render.toList ∧ n.value = d.value := by
  have hlength := Nat.length_toDigits_pos (b := 10) (n := d.digits)
  unfold render value
  simp only [String.toList_ofList]
  split
  next hplain =>
    split
    next hwhole =>
      refine ⟨.padded d.digits d.exponent.toNat, ?_, ?_⟩
      · simp [Numeral.text, Numeral.fractionText, Numeral.exponentText, Numeral.padded]
      · rw [Numeral.value_padded, ← zpow_natCast, Int.toNat_of_nonneg hwhole]
    next hnegative =>
      split
      next hinside =>
        refine ⟨.pointed d.digits (d.exponent + (Nat.toDigits 10 d.digits).length - 1).toNat 0, ?_, ?_⟩
        · rw [Numeral.text, Numeral.fractionText_pointed, if_neg (by omega)]
          simp [Numeral.exponentText, Numeral.pointed]
        · rw [Numeral.value_pointed _ (by omega)]
          congr 2
          omega
      next =>
        refine ⟨.leading d.digits (-(d.exponent + (Nat.toDigits 10 d.digits).length - 1) - 1).toNat, ?_, ?_⟩
        · simp [Numeral.text, Numeral.fractionText, Numeral.exponentText, Numeral.leading]
        · rw [Numeral.value_leading]
          congr 2
          omega
  next hfar =>
    refine ⟨.pointed d.digits 0 (d.exponent + (Nat.toDigits 10 d.digits).length - 1), ?_, ?_⟩
    · have hexponent : d.exponent + (Nat.toDigits 10 d.digits).length - 1 ≠ 0 := by omega
      have hsingle : (Nat.toDigits 10 d.digits).length ≤ 0 + 1 ↔ (Nat.toDigits 10 d.digits).length = 1 := by omega
      rw [Numeral.text, Numeral.fractionText_pointed]
      simp only [Numeral.exponentText, Numeral.pointed, hexponent, hsingle, if_false, Int.toString_eq_repr,
        List.append_assoc]
    · rw [Numeral.value_pointed _ hlength]
      congr 2
      omega

/-! ## Bits -/

section

open Float.Model Float.Model.UnpackedFloat

/-- The number of a float among those without a sign. -/
def ordinal (x : Float) : Nat := x.toBits.toNat % 2 ^ 63

def infinityOrdinal : Nat := 0x7ff0000000000000

theorem ordinal_lt (x : Float) : ordinal x < 2 ^ 63 := Nat.mod_lt _ (by decide)

theorem unpackMantissa_eq_zero (x : Float) :
    @unpackMantissa Format.binary64 x.toBits.toBitVec = 0#_ ↔ ordinal x % 2 ^ 52 = 0 := by
  have htoNat : (@unpackMantissa Format.binary64 x.toBits.toBitVec).toNat = ordinal x % 2 ^ 52 := by
    unfold unpackMantissa ordinal
    rw [BitVec.toNat_cast, BitVec.extractLsb_toNat]
    simp only [UInt64.toNat_toBitVec]
    omega
  rw [← BitVec.toNat_inj, htoNat]
  rfl

theorem toNat_unpackExponent (x : Float) :
    (@unpackExponent Format.binary64 x.toBits.toBitVec).toNat = ordinal x / 2 ^ 52 := by
  unfold unpackExponent ordinal
  rw [BitVec.toNat_cast, BitVec.extractLsb_toNat, Nat.shiftRight_eq_div_pow]
  simp only [UInt64.toNat_toBitVec]
  omega

theorem unpackExponent_eq_zero (x : Float) :
    @unpackExponent Format.binary64 x.toBits.toBitVec = 0#_ ↔ ordinal x / 2 ^ 52 = 0 := by
  rw [← BitVec.toNat_inj, toNat_unpackExponent]
  rfl

theorem unpackExponent_eq_last (x : Float) :
    @unpackExponent Format.binary64 x.toBits.toBitVec = -1#_ ↔ ordinal x / 2 ^ 52 = 2047 := by
  rw [← BitVec.toNat_inj, toNat_unpackExponent]
  rfl

theorem unpack_cases (x : Float) :
    (ordinal x = 0 ∧ ∃ sign, x.toModel.unpack = .zero sign) ∨
    (0 < ordinal x ∧ ordinal x < infinityOrdinal ∧ ∃ sign m e h, x.toModel.unpack = .finite sign m e h) ∨
    (ordinal x = infinityOrdinal ∧ ∃ sign, x.toModel.unpack = .infinity sign) ∨
    (infinityOrdinal < ordinal x ∧ x.toModel.unpack = .notANumber) := by
  have hlt := ordinal_lt x
  have hunpack : x.toModel.unpack = UnpackedFloat.unpack Format.binary64 x.toBits.toBitVec := rfl
  rw [hunpack]
  unfold infinityOrdinal UnpackedFloat.unpack
  by_cases he : @unpackExponent Format.binary64 x.toBits.toBitVec = -1#_
  · have hlast := (unpackExponent_eq_last x).mp he
    rw [if_pos he]
    by_cases hm : @unpackMantissa Format.binary64 x.toBits.toBitVec = 0#_
    · have hfraction := (unpackMantissa_eq_zero x).mp hm
      rw [if_pos hm]
      exact .inr (.inr (.inl ⟨by omega, _, rfl⟩))
    · have hfraction := mt (unpackMantissa_eq_zero x).mpr hm
      rw [if_neg hm]
      exact .inr (.inr (.inr ⟨by omega, rfl⟩))
  have hlast := mt (unpackExponent_eq_last x).mpr he
  rw [if_neg he]
  by_cases hz : @unpackExponent Format.binary64 x.toBits.toBitVec = 0#_
  · have hfirst := (unpackExponent_eq_zero x).mp hz
    rw [if_pos hz]
    by_cases hm : @unpackMantissa Format.binary64 x.toBits.toBitVec = 0#_
    · have hfraction := (unpackMantissa_eq_zero x).mp hm
      rw [dif_pos hm]
      exact .inl ⟨by omega, _, rfl⟩
    · have hfraction := mt (unpackMantissa_eq_zero x).mpr hm
      have hpos := Nat.pos_of_ne_zero fun h => hm (BitVec.eq_of_toNat_eq h)
      rw [dif_neg hm]
      exact .inr (.inl ⟨by omega, by omega, _, _, _, hpos, rfl⟩)
  · have hfirst := mt (unpackExponent_eq_zero x).mpr hz
    have hpos : ∀ {n : Nat} (m : BitVec n), 0 < (1#1 ++ m).toNat := by simp
    rw [if_neg hz]
    exact .inr (.inl ⟨by omega, by omega, _, _, _, hpos _, rfl⟩)

theorem isNaN_iff {x : Float} : x.isNaN = true ↔ infinityOrdinal < ordinal x := by
  have hisNaN : x.isNaN = x.toModel.unpack.isNaN := rfl
  rw [hisNaN]
  rcases unpack_cases x with ⟨h, sign, hu⟩ | ⟨-, h, sign, m, e, hm, hu⟩ | ⟨h, sign, hu⟩ |
    ⟨h, hu⟩ <;> rw [hu]
  · exact ⟨nofun, fun h' => absurd h' (by omega)⟩
  · exact ⟨nofun, fun h' => absurd h' (by omega)⟩
  · exact ⟨nofun, fun h' => absurd h' (by omega)⟩
  · exact ⟨fun _ => h, fun _ => rfl⟩

theorem isInf_iff {x : Float} : x.isInf = true ↔ ordinal x = infinityOrdinal := by
  have hisInf : x.isInf = x.toModel.unpack.isInf := rfl
  rw [hisInf]
  rcases unpack_cases x with ⟨h, sign, hu⟩ | ⟨-, h, sign, m, e, hm, hu⟩ | ⟨h, sign, hu⟩ |
    ⟨h, hu⟩ <;> rw [hu]
  · exact ⟨nofun, fun h' => absurd (h.symm.trans h') (by decide)⟩
  · exact ⟨nofun, fun h' => absurd h' (by omega)⟩
  · exact ⟨fun _ => h, fun _ => rfl⟩
  · exact ⟨nofun, fun h' => absurd h' (by omega)⟩

theorem beq_zero_iff {x : Float} : (x == 0.0) = true ↔ ordinal x = 0 := by
  have hbeq : (x == 0.0) = x.toModel.unpack.beq (.zero .positive) := rfl
  rw [hbeq]
  rcases unpack_cases x with ⟨h, sign, hu⟩ | ⟨h, -, sign, m, e, hm, hu⟩ | ⟨h, sign, hu⟩ |
    ⟨h, hu⟩ <;> rw [hu]
  · exact ⟨fun _ => h, fun _ => rfl⟩
  · exact ⟨by cases sign <;> nofun, fun h' => absurd h' (by omega)⟩
  · exact ⟨by cases sign <;> nofun, fun h' => absurd (h.symm.trans h') (by decide)⟩
  · exact ⟨nofun, fun h' => absurd h' (by omega)⟩

end

theorem eq_of_toBits {x y : Float} (h : x.toBits = y.toBits) : x = y := by
  obtain ⟨⟨bits, hbits⟩⟩ := x
  obtain ⟨⟨bits', hbits'⟩⟩ := y
  obtain rfl : bits = bits' := h
  rfl

theorem eq_of_isNaN {x y : Float} (hx : x.isNaN = true) (hy : y.isNaN = true) : x = y := by
  have hbits : ∀ {z : Float}, z.isNaN = true →
      z.toBits.toBitVec = Float.Model.UnpackedFloat.packedNaN Float.Model.Format.binary64 := by
    intro z hz
    have hlt := ordinal_lt z
    have hz := isNaN_iff.mp hz
    unfold infinityOrdinal at hz
    refine z.toModel.valid.eq_packedNaN ((unpackExponent_eq_last z).mpr ?_) (mt (unpackMantissa_eq_zero z).mp ?_)
    · omega
    · omega
  exact eq_of_toBits (UInt64.toBitVec_inj.mp ((hbits hx).trans (hbits hy).symm))

theorem isNegative_iff (x : Float) : x.toBits >>> 63 = 1 ↔ 2 ^ 63 ≤ x.toBits.toNat := by
  have hlt := x.toBits.toNat_lt
  have hshift : (x.toBits >>> 63).toNat = x.toBits.toNat / 2 ^ 63 := by
    rw [UInt64.toNat_shiftRight, Nat.shiftRight_eq_div_pow]
    rfl
  rw [← UInt64.toNat_inj, hshift, UInt64.toNat_one]
  omega

theorem eq_of_ordinal {x y : Float} (hsign : x.toBits >>> 63 = 1 ↔ y.toBits >>> 63 = 1)
    (h : ordinal x = ordinal y) : x = y := by
  have hx := x.toBits.toNat_lt
  have hy := y.toBits.toNat_lt
  rw [isNegative_iff, isNegative_iff] at hsign
  unfold ordinal at h
  exact eq_of_toBits (UInt64.toNat_inj.mp (by omega))

/-! ## Floats -/

def magnitudeText (n : Nat) : List Char :=
  if n = infinityOrdinal then "inf".toList
  else if n = 0 then "0.0".toList
  else (Binary.ofOrdinal n).shortest.render.toList

theorem toList_renderFloat {x : Float} (h : x.isNaN = false) :
    (renderFloat x).toList = (if x.toBits >>> 63 = 1 then ['-'] else []) ++ magnitudeText (ordinal x) := by
  unfold renderFloat magnitudeText
  simp only [h, isInf_iff, beq_zero_iff, Binary.ofFloat_eq_ofOrdinal, Bool.false_eq_true, if_false,
    String.toList_append]
  congr 1
  · split <;> rfl
  · split
    · rfl
    · split <;> rfl

/-- The text of a finite float is a numeral that reads back as it. -/
theorem exists_numeral_of_ne_infinity {n : Nat} (hn : n ≠ infinityOrdinal) :
    ∃ m : Numeral, m.text = magnitudeText n ∧ (Binary.ofOrdinal n).Contains m.value := by
  unfold magnitudeText
  rw [if_neg hn]
  by_cases hzero : n = 0
  · subst hzero
    refine ⟨.padded 0 0, rfl, ?_⟩
    rw [Numeral.value_padded, Binary.ofOrdinal_small (by decide)]
    norm_num [Binary.Contains, Binary.lower, Binary.upper, Binary.quarter, Binary.low, Binary.high, Binary.middle]
  · rw [if_neg hzero]
    obtain ⟨m, htext, hvalue⟩ := (Binary.ofOrdinal n).shortest.exists_numeral
    exact ⟨m, htext, hvalue ▸ (Binary.proper_ofOrdinal (Nat.pos_of_ne_zero hzero)).contains_shortest⟩

theorem exists_magnitudeText (n : Nat) : ∃ c cs, magnitudeText n = c :: cs ∧ (c.isDigit = true ∨ c = 'i') := by
  by_cases hn : n = infinityOrdinal
  · subst hn
    exact ⟨'i', ['n', 'f'], rfl, .inr rfl⟩
  · obtain ⟨m, htext, -⟩ := exists_numeral_of_ne_infinity hn
    obtain ⟨c, cs, hcs, hc⟩ := m.exists_text
    exact ⟨c, cs, htext ▸ hcs, .inl hc⟩

theorem magnitudeText_ne_infinity {n : Nat} (hn : n ≠ infinityOrdinal) :
    magnitudeText n ≠ magnitudeText infinityOrdinal := by
  obtain ⟨m, htext, -⟩ := exists_numeral_of_ne_infinity hn
  obtain ⟨c, cs, hcs, hc⟩ := m.exists_text
  intro h
  obtain rfl : c = 'i' := (List.cons.inj ((hcs.symm.trans htext).trans h)).1
  cases hc

theorem magnitudeText_injective : Function.Injective magnitudeText := by
  intro m n h
  by_cases hm : m = infinityOrdinal
  · subst hm
    by_contra hn
    exact magnitudeText_ne_infinity (Ne.symm hn) h.symm
  · have hn : n ≠ infinityOrdinal := by
      rintro rfl
      exact magnitudeText_ne_infinity hm h
    obtain ⟨u, hu, hcontains⟩ := exists_numeral_of_ne_infinity hm
    obtain ⟨v, hv, hcontains'⟩ := exists_numeral_of_ne_infinity hn
    have hvalue := Numeral.value_of_text ((hu.trans h).trans hv.symm)
    exact Binary.eq_of_contains hcontains (hvalue ▸ hcontains')

theorem sign_of_text {m n : Nat} {p q : Prop} [Decidable p] [Decidable q]
    (h : (if p then ['-'] else []) ++ magnitudeText m = (if q then ['-'] else []) ++ magnitudeText n) :
    (p ↔ q) ∧ magnitudeText m = magnitudeText n := by
  have hminus : ∀ {m n : Nat}, '-' :: magnitudeText m ≠ magnitudeText n := by
    intro m n h
    obtain ⟨c, cs, hcs, hc⟩ := exists_magnitudeText n
    obtain rfl : '-' = c := (List.cons.inj (h.trans hcs)).1
    rcases hc with hc | hc <;> cases hc
  by_cases hp : p <;> by_cases hq : q <;> simp only [hp, hq, if_true, if_false, List.nil_append, List.cons_append] at h
  · exact ⟨iff_of_true hp hq, (List.cons.inj h).2⟩
  · exact absurd h hminus
  · exact absurd h.symm hminus
  · exact ⟨iff_of_false hp hq, h⟩

theorem renderFloat_ne_nan {x : Float} (h : x.isNaN = false) : (renderFloat x).toList ≠ "NaN".toList := by
  obtain ⟨c, cs, hcs, hc⟩ := exists_magnitudeText (ordinal x)
  rw [toList_renderFloat h, hcs]
  intro hn
  split at hn
  · cases hn
  · obtain rfl : c = 'N' := (List.cons.inj hn).1
    rcases hc with hc | hc <;> cases hc

theorem renderFloat_injective : Function.Injective renderFloat := by
  intro x y h
  have hlist := congrArg String.toList h
  cases hx : x.isNaN <;> cases hy : y.isNaN
  · rw [toList_renderFloat hx, toList_renderFloat hy] at hlist
    obtain ⟨hsign, hmagnitude⟩ := sign_of_text hlist
    exact eq_of_ordinal hsign (magnitudeText_injective hmagnitude)
  · have hnan : renderFloat y = "NaN" := by rw [renderFloat, if_pos hy]
    exact absurd (hlist.trans (congrArg String.toList hnan)) (renderFloat_ne_nan hx)
  · have hnan : renderFloat x = "NaN" := by rw [renderFloat, if_pos hx]
    exact absurd (hlist.symm.trans (congrArg String.toList hnan)) (renderFloat_ne_nan hy)
  · exact eq_of_isNaN hx hy

end Bies
