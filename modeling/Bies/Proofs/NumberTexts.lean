import Bies.Number
import Mathlib.Data.List.Basic

/-!
# Texts of numbers

The characters that a number is written with. Whatever else is written around it is none of them, and a float is never
taken for a whole number.
-/

namespace Bies

def isIntegerPart (c : Char) : Bool := c.isDigit || c == '-'

def isNumeralPart (c : Char) : Bool := isIntegerPart c || ".eNainf".toList.contains c

theorem isIntegerPart_of_isDigit {c : Char} (h : c.isDigit = true) : isIntegerPart c = true := by
  simp [isIntegerPart, h]

theorem isNumeralPart_of_isIntegerPart {c : Char} (h : isIntegerPart c = true) : isNumeralPart c = true := by
  simp [isNumeralPart, h]

theorem eq_of_run_append_eq {p : Char → Bool} {u v r s : List Char} (hu : ∀ c ∈ u, p c = true)
    (hv : ∀ c ∈ v, p c = true) (hr : ∀ c ∈ r.head?, p c = false) (hs : ∀ c ∈ s.head?, p c = false)
    (h : u ++ r = v ++ s) : u = v ∧ r = s := by
  have hstop : ∀ {t : List Char}, (∀ c ∈ t.head?, p c = false) → t.takeWhile p = [] := by
    intro t ht
    cases t with
    | nil => rfl
    | cons c t => simp [ht c rfl]
  have huv := congrArg (List.takeWhile p) h
  rw [List.takeWhile_append_of_pos hu, List.takeWhile_append_of_pos hv, hstop hr, hstop hs, List.append_nil,
    List.append_nil] at huv
  subst huv
  exact ⟨rfl, List.append_cancel_left h⟩

/-! ## Whole numbers -/

theorem isDigit_of_mem_digits {n : Nat} {c : Char} (h : c ∈ Nat.toDigits 10 n) : c.isDigit = true :=
  Nat.isDigit_of_mem_toDigits (by decide) (by decide) h

theorem eq_of_digits {m n : Nat} (h : Nat.toDigits 10 m = Nat.toDigits 10 n) : m = n := by
  rw [← Nat.ofDigitChars_ten_toDigits (n := m), h, Nat.ofDigitChars_ten_toDigits]

theorem toList_int (n : Int) :
    n.repr.toList = if 0 ≤ n then Nat.toDigits 10 n.toNat else '-' :: Nat.toDigits 10 (-n).toNat := by
  rw [Int.repr_eq_if]
  split <;> simp

theorem isIntegerPart_of_mem_int {n : Int} {c : Char} (h : c ∈ n.repr.toList) : isIntegerPart c = true := by
  rw [toList_int] at h
  split at h
  · exact isIntegerPart_of_isDigit (isDigit_of_mem_digits h)
  · rcases List.mem_cons.mp h with rfl | h
    · rfl
    · exact isIntegerPart_of_isDigit (isDigit_of_mem_digits h)

theorem isNumeralPart_of_mem_digits {n : Nat} {c : Char} (h : c ∈ Nat.toDigits 10 n) : isNumeralPart c = true :=
  isNumeralPart_of_isIntegerPart (isIntegerPart_of_isDigit (isDigit_of_mem_digits h))

theorem isNumeralPart_of_mem_int {n : Int} {c : Char} (h : c ∈ n.repr.toList) : isNumeralPart c = true :=
  isNumeralPart_of_isIntegerPart (isIntegerPart_of_mem_int h)

theorem int_ne_nil (n : Int) : n.repr.toList ≠ [] := by
  rw [toList_int]
  split
  · exact Nat.toDigits_ne_nil
  · exact List.cons_ne_nil _ _

theorem digits_ne_negative {m : Nat} {cs : List Char} : Nat.toDigits 10 m ≠ '-' :: cs := by
  intro h
  have : Char.isDigit '-' = true := isDigit_of_mem_digits (h ▸ List.mem_cons_self)
  exact absurd this (by decide)

theorem eq_of_toList_int {m n : Int} (h : m.repr.toList = n.repr.toList) : m = n := by
  rw [toList_int, toList_int] at h
  by_cases hm : 0 ≤ m <;> by_cases hn : 0 ≤ n
  · rw [if_pos hm, if_pos hn] at h
    have := eq_of_digits h
    omega
  · rw [if_pos hm, if_neg hn] at h
    exact absurd h digits_ne_negative
  · rw [if_neg hm, if_pos hn] at h
    exact absurd h.symm digits_ne_negative
  · rw [if_neg hm, if_neg hn] at h
    have := eq_of_digits (List.cons.inj h).2
    omega

/-! ## Floats -/

structure IsFloatText (text : List Char) : Prop where
  parts : ∀ c ∈ text, isNumeralPart c = true
  other : ∃ c ∈ text, isIntegerPart c = false

namespace IsFloatText

theorem of_mem {text : List Char} {c : Char} (hparts : ∀ c ∈ text, isNumeralPart c = true) (hc : c ∈ text)
    (hother : isIntegerPart c = false) : IsFloatText text := ⟨hparts, c, hc, hother⟩

theorem append {sign text : List Char} (hsign : ∀ c ∈ sign, isNumeralPart c = true) (h : IsFloatText text) :
    IsFloatText (sign ++ text) := by
  obtain ⟨c, hc, hother⟩ := h.other
  exact ⟨List.forall_mem_append.mpr ⟨hsign, h.parts⟩, c, List.mem_append_right sign hc, hother⟩

end IsFloatText

theorem Decimal.isFloatText_render (d : Decimal) : IsFloatText d.render.toList := by
  have hzeros : ∀ k, ∀ c ∈ List.replicate k '0', isNumeralPart c = true := by
    intro k c hc
    rw [List.eq_of_mem_replicate hc]
    rfl
  have hdigits : ∀ c ∈ Nat.toDigits 10 d.digits, isNumeralPart c = true := fun c => isNumeralPart_of_mem_digits
  have htake : ∀ k, ∀ c ∈ (Nat.toDigits 10 d.digits).take k, isNumeralPart c = true :=
    fun k c hc => hdigits c (List.mem_of_mem_take hc)
  have hdrop : ∀ k, ∀ c ∈ (Nat.toDigits 10 d.digits).drop k, isNumeralPart c = true :=
    fun k c hc => hdigits c (List.mem_of_mem_drop hc)
  have hpoint : isNumeralPart '.' = true := rfl
  unfold render
  simp only [String.toList_ofList]
  split
  · split
    · refine .of_mem (c := '.') ?_ (by simp) rfl
      simp only [List.forall_mem_append]
      exact ⟨⟨hdigits, hzeros _⟩, List.all_eq_true.mp rfl⟩
    · split
      · refine .of_mem (c := '.') ?_ (by simp) rfl
        simp only [List.forall_mem_append, List.forall_mem_cons]
        exact ⟨htake _, hpoint, hdrop _⟩
      · refine .of_mem (c := '.') ?_ (by simp) rfl
        simp only [List.cons_append, List.forall_mem_append, List.forall_mem_cons]
        exact ⟨rfl, hpoint, hzeros _, hdigits⟩
  · refine .of_mem (c := 'e') ?_ (by simp) rfl
    simp only [List.forall_mem_append, List.forall_mem_cons]
    refine ⟨⟨htake _, ?_⟩, rfl, fun c => isNumeralPart_of_mem_int⟩
    split
    · exact fun c hc => absurd hc List.not_mem_nil
    · exact List.forall_mem_cons.mpr ⟨hpoint, hdrop _⟩

theorem isFloatText_renderFloat (x : Float) : IsFloatText (renderFloat x).toList := by
  unfold renderFloat
  split
  · exact .of_mem (c := 'N') (List.all_eq_true.mp rfl) (by decide) rfl
  · simp only [String.toList_append]
    refine .append ?_ ?_
    · split <;> exact List.all_eq_true.mp rfl
    · split
      · exact .of_mem (c := 'i') (List.all_eq_true.mp rfl) (by decide) rfl
      · split
        · exact .of_mem (c := '.') (List.all_eq_true.mp rfl) (by decide) rfl
        · exact Decimal.isFloatText_render _

end Bies
