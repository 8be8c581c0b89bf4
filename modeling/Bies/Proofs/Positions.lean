import Bies.Proofs.TokenSpans

/-!
# Lines and columns

A place is told by its line and column as well as by its offset. Places are ordered as they stand in the text,
and the lines of the text say which offset a place has.
-/

namespace Bies
namespace Position

def Before (p q : Position) : Prop := p.line < q.line ∨ p.line = q.line ∧ p.column < q.column

instance (p q : Position) : Decidable (p.Before q) := inferInstanceAs (Decidable (_ ∨ _))

/-- The text up to the cut after `j` characters of line `k`, both counted from zero. -/
def cut? (lines : List (List Char)) (k j : Nat) : Option (List Char) :=
  lines[k]?.bind fun line =>
    if j ≤ line.length then some ((lines.take k).flatMap (· ++ ['\n']) ++ line.take j) else none

def offset? (p : Position) (source : List Char) : Option Nat :=
  if 0 < p.line ∧ 0 < p.column then (cut? (source.splitOn '\n') (p.line - 1) (p.column - 1)).map byteLength else none

/-! ## The order of places -/

section
variable {p q r : Position}

theorem Before.trans (h : p.Before q) (h' : q.Before r) : p.Before r := by
  unfold Before at *
  omega

theorem before_advance (p : Position) (c : Char) : p.Before (p.advance c) := by
  unfold advance
  split
  · exact .inl (Nat.lt_succ_self _)
  · exact .inr ⟨rfl, Nat.lt_succ_self _⟩

theorem before_foldl (p : Position) {text : List Char} (h : text ≠ []) : p.Before (text.foldl advance p) := by
  induction text generalizing p with
  | nil => exact absurd rfl h
  | cons c text ih =>
    by_cases htext : text = []
    · subst htext
      exact before_advance p c
    · exact (before_advance p c).trans (ih (p.advance c) htext)

theorem before_after_append (before : List Char) {text : List Char} (h : text ≠ []) :
    (after before).Before (after (before ++ text)) := by
  rw [after, after, List.foldl_append]
  exact before_foldl _ h

end

/-! ## The place behind a text -/

/-- The place `q` of a text that starts at `p`: only its first line is moved to the right. -/
def behind (p q : Position) : Position :=
  ⟨p.line + q.line - 1, if q.line = 1 then p.column + q.column - 1 else q.column⟩

theorem advance_behind (p : Position) {q : Position} (hl : 0 < q.line) (hc : 0 < q.column) (c : Char) :
    (p.behind q).advance c = p.behind (q.advance c) := by
  unfold behind advance
  by_cases hnl : c = '\n'
  · simp [hnl]
    omega
  · by_cases hq : q.line = 1 <;> simp [hnl, hq]
    omega

theorem foldl_advance_behind (p : Position) {q : Position} (hl : 0 < q.line) (hc : 0 < q.column) (text : List Char) :
    text.foldl advance (p.behind q) = p.behind (text.foldl advance q) := by
  induction text generalizing q with
  | nil => rfl
  | cons c text ih =>
    rw [List.foldl_cons, List.foldl_cons, advance_behind p hl hc]
    apply ih <;> unfold advance <;> split <;> simp [hl]

theorem after_cons (c : Char) (text : List Char) : after (c :: text) = (first.advance c).behind (after text) := by
  rw [after, List.foldl_cons]
  apply foldl_advance_behind (first.advance c) (q := first) Nat.one_pos Nat.one_pos text

/-! ## The offset of a place -/

section
variable {line : List Char} {lines : List (List Char)} {k j : Nat} {text : List Char}

theorem cut?_zero_eq_some : cut? (line :: lines) 0 j = some text ↔ j ≤ line.length ∧ line.take j = text := by
  simp [cut?]

theorem cut?_succ : cut? (line :: lines) (k + 1) j = (cut? lines k j).map (line ++ '\n' :: ·) := by
  simp only [cut?, List.getElem?_cons_succ, Option.map_bind]
  congr 1
  funext l
  simp only [Function.comp]
  split <;> simp

end

theorem cut?_splitOn (before rest : List Char) : ∃ k j, after before = ⟨k + 1, j + 1⟩ ∧
    cut? ((before ++ rest).splitOn '\n') k j = some before := by
  induction before with
  | nil =>
    refine ⟨0, 0, rfl, ?_⟩
    cases h : rest.splitOn '\n' with
    | nil => simp at h
    | cons line lines => simp [h, cut?_zero_eq_some]
  | cons c before ih =>
    obtain ⟨k, j, hafter, hcut⟩ := ih
    rw [after_cons, hafter, List.cons_append, List.splitOn_cons_eq_if_modifyHead]
    by_cases hc : c = '\n'
    · refine ⟨k + 1, j, by simp [hc, advance, first, behind]; omega, ?_⟩
      simp [hc, cut?_succ, hcut]
    · cases h : (before ++ rest).splitOn '\n' with
      | nil => simp at h
      | cons line lines =>
        rw [h] at hcut
        cases k with
        | zero =>
          refine ⟨0, j + 1, by simp [hc, advance, first, behind]; omega, ?_⟩
          simpa [hc, cut?_zero_eq_some] using hcut
        | succ k =>
          refine ⟨k + 1, j, by simp [hc, advance, first, behind], ?_⟩
          rw [cut?_succ] at hcut
          obtain ⟨text, htext, rfl⟩ := Option.map_eq_some_iff.1 hcut
          simp [hc, cut?_succ, htext]

end Position

theorem IsBoundary.position_eq {source : List Char} (hsize : byteLength source < 2 ^ 32) {p : Nat}
    (hp : IsBoundary source p) (stop : Nat) :
    ∃ before after, source = before ++ after ∧ p = byteLength before ∧
      (Span.ofOffsets p stop).position source = .after before := by
  obtain ⟨before, after, rfl, rfl⟩ := hp
  refine ⟨before, after, rfl, rfl, ?_⟩
  rw [byteLength_append] at hsize
  rw [Span.position, Span.start_ofOffsets (by omega), takeBytes?_append]
  rfl

theorem Span.position_identifies {source : List Char} (hsize : byteLength source < 2 ^ 32) :
    (∀ p, IsBoundary source p → ∀ stop, ((Span.ofOffsets p stop).position source).offset? source = some p) ∧
      ∀ p q, IsBoundary source p → IsBoundary source q → p < q → ∀ stop stop',
        ((Span.ofOffsets p stop).position source).Before ((Span.ofOffsets q stop').position source) := by
  constructor
  · intro p hp stop
    obtain ⟨before, after, rfl, rfl, hpos⟩ := hp.position_eq hsize stop
    obtain ⟨k, j, hafter, hcut⟩ := Position.cut?_splitOn before after
    simp [hpos, hafter, Position.offset?, hcut]
  · intro p q hp hq hlt stop stop'
    obtain ⟨before, after, rfl, rfl, hpos⟩ := hp.position_eq hsize stop
    obtain ⟨before', after', heq, rfl, hpos'⟩ := hq.position_eq hsize stop'
    rw [hpos, hpos']
    -- Both texts start the source, so the longer one goes on where the shorter one ends.
    rcases List.append_eq_append_iff.1 heq with ⟨middle, rfl, -⟩ | ⟨middle, rfl, -⟩
    · apply Position.before_after_append
      rintro rfl
      simp at hlt
    · rw [byteLength_append] at hlt
      omega

def wideText : List Char := ['é', '\n', '𝔸', 'b']

theorem Span.position_wideText : byteLength wideText < 2 ^ 32 ∧ IsBoundary wideText 2 ∧ IsBoundary wideText 7 ∧
    ((Span.ofOffsets 7 8).position wideText).offset? wideText = some 7 ∧
    ((Span.ofOffsets 2 3).position wideText).Before ((Span.ofOffsets 7 8).position wideText) := by
  have hsize : byteLength wideText < 2 ^ 32 := by decide
  have newline : IsBoundary wideText 2 := ⟨['é'], _, rfl, rfl⟩
  have letter : IsBoundary wideText 7 := ⟨['é', '\n', '𝔸'], _, rfl, rfl⟩
  obtain ⟨recovered, ordered⟩ := Span.position_identifies hsize
  exact ⟨hsize, newline, letter, recovered 7 letter 8, ordered 2 7 newline letter (by decide) 3 8⟩

end Bies
