import Bies.Proofs.TokenGaps

/-!
# Where tokens stand

A source is cut into tokens and the blanks between them. The spans of the tokens say where the cuts are, as long as no
offset reaches 2³².
-/

namespace Bies

/-! ## Cuts of a text -/

def IsBoundary (text : List Char) (offset : Nat) : Prop :=
  ∃ before after, text = before ++ after ∧ offset = byteLength before

def Span.Covers (s : Span) (offset : Nat) : Prop := s.start.toNat ≤ offset ∧ offset < s.stop.toNat

instance (s : Span) (offset : Nat) : Decidable (s.Covers offset) := inferInstanceAs (Decidable (_ ∧ _))

theorem append_eq_cut {a b before after : List Char} {c : Char} (h : a ++ b = before ++ c :: after) :
    (∃ rest, a = before ++ c :: rest) ∨ ∃ middle, before = a ++ middle ∧ b = middle ++ c :: after := by
  rcases List.append_eq_append_iff.mp h with ⟨middle, hbefore, hb⟩ | ⟨tail, ha, hafter⟩
  · exact .inr ⟨middle, hbefore, hb⟩
  · cases tail with
    | nil => exact .inr ⟨[], by simpa using ha.symm, by simpa using hafter.symm⟩
    | cons d tail =>
      obtain ⟨rfl, -⟩ := List.cons.inj hafter
      exact .inl ⟨tail, ha⟩

theorem mem_of_offset {pre chars rest before after : List Char} {c : Char}
    (h : pre ++ (chars ++ rest) = before ++ c :: after) (hlow : byteLength pre ≤ byteLength before)
    (hhigh : byteLength before < byteLength pre + byteLength chars) : c ∈ chars := by
  have hc := c.utf8Size_pos
  rcases append_eq_cut h with ⟨tail, rfl⟩ | ⟨middle, rfl, hmiddle⟩
  · rw [byteLength_append] at hlow
    simp only [byteLength] at hlow
    omega
  · rw [byteLength_append] at hhigh
    rcases append_eq_cut hmiddle with ⟨tail, rfl⟩ | ⟨gap, rfl, -⟩
    · simp
    · rw [byteLength_append] at hhigh
      omega

/-! ## Blanks in tokens -/

theorem isBlank_of_isIdentifierPart {c : Char} (h : isIdentifierPart c = true) : isBlank c = false := by
  rw [Bool.eq_false_iff]
  intro hblank
  obtain ⟨n, hn, rfl⟩ := Outline.isBlank_cases hblank
  have : ∀ n ∈ blankRanges.flatMap fun r => List.range' r.1 (r.2 + 1 - r.1),
      isIdentifierPart (Char.ofNat n) = false := by decide +kernel
  rw [this n hn] at h
  cases h

def TokenKind.mayHoldBlanks : TokenKind → Bool
  | .string | .comment => true
  | .identifier | .number | .punct => false

theorem isBlank_of_isDigit {c : Char} (h : c.isDigit = true) : isBlank c = false :=
  Outline.isBlank_eq_false (.inr h)

theorem isBlank_of_mem_splitNumber {cs : List Char} {d : Char} (h : d ∈ (splitNumber cs).1) : isBlank d = false := by
  have hdigits : ∀ text : List Char, ∀ d ∈ text.takeWhile Char.isDigit, isBlank d = false := fun text d hd =>
    isBlank_of_isDigit (List.all_eq_true.mp List.all_takeWhile d hd)
  simp only [splitNumber] at h
  split at h
  next e rest hdrop =>
    split at h
    next he =>
      simp only [List.mem_append, List.mem_cons] at h
      rcases h with h | rfl | rfl | h
      · exact hdigits cs d h
      · decide
      · exact isBlank_of_isDigit he
      · exact hdigits rest d h
    next => exact hdigits cs d h
  next => exact hdigits cs d h

theorem Lexeme.isBlank_of_mem {c : Char} {cs : List Char} (hc : isBlank c = false)
    (hkind : (split c cs).kind.mayHoldBlanks = false) : ∀ d ∈ (split c cs).chars, isBlank d = false := by
  have hpair : ∀ d, isPair c d = true → isBlank d = false := by
    intro d h
    simp only [isPair, decide_eq_true_eq, List.mem_cons, Prod.mk.injEq, List.not_mem_nil, or_false] at h
    rcases h with ⟨-, rfl⟩ | ⟨-, rfl⟩ | ⟨-, rfl⟩ | ⟨-, rfl⟩ | ⟨-, rfl⟩ | ⟨-, rfl⟩ <;> rfl
  simp only [split] at hkind ⊢
  split at hkind
  · cases hkind
  split at hkind
  · cases hkind
  rw [if_neg ‹_›, if_neg ‹_›]
  split
  · exact List.forall_mem_cons.mpr ⟨hc, fun d hd => isBlank_of_mem_splitNumber hd⟩
  split
  · refine List.forall_mem_cons.mpr ⟨hc, fun d hd => ?_⟩
    exact isBlank_of_isIdentifierPart (List.all_eq_true.mp List.all_takeWhile d hd)
  split
  · split
    next h => exact List.forall_mem_cons.mpr ⟨hc, List.forall_mem_singleton.mpr (hpair _ h)⟩
    next => exact List.forall_mem_singleton.mpr hc
  · exact List.forall_mem_singleton.mpr hc

/-! ## Tokens and the blanks between them -/

namespace Token

/-- The text, which starts at the offset `start`, is cut into blanks and the tokens. -/
inductive Cut : Nat → List Char → List Token → Prop where
  | blanks {start gap} (hgap : ∀ c ∈ gap, isBlank c = true) : Cut start gap []
  | token {start gap chars rest kind ts}
    (hgap : ∀ c ∈ gap, isBlank c = true) (hsome : chars ≠ [])
    (hsolid : kind.mayHoldBlanks = false → ∀ c ∈ chars, isBlank c = false)
    (hrest : Cut (start + byteLength gap + byteLength chars) rest ts) :
    Cut start (gap ++ (chars ++ rest))
      (⟨kind, .ofOffsets (start + byteLength gap) (start + byteLength gap + byteLength chars), .ofList chars⟩ :: ts)

theorem Cut.skip {start : Nat} {c : Char} {cs : List Char} {ts : List Token} (hc : isBlank c = true)
    (h : Cut (start + c.utf8Size) cs ts) : Cut start (c :: cs) ts := by
  cases h with
  | blanks hgap => exact .blanks (List.forall_mem_cons.mpr ⟨hc, hgap⟩)
  | @token _ gap chars rest kind ts hgap hsome hsolid hrest =>
    have hstart : start + c.utf8Size + byteLength gap = start + byteLength (c :: gap) := by
      simp only [byteLength]
      omega
    rw [hstart] at hrest ⊢
    exact .token (List.forall_mem_cons.mpr ⟨hc, hgap⟩) hsome hsolid hrest

theorem cut_scanFrom (start : Nat) (cs : List Char) : Cut start cs (scanFrom start cs) := by
  induction start, cs using scanFrom.induct with
  | case1 start =>
    rw [scanFrom]
    exact .blanks fun _ h => absurd h List.not_mem_nil
  | case2 start c cs hblank ih =>
    rw [scanFrom, if_pos hblank]
    exact ih.skip hblank
  | case3 start c cs hblank lexeme stop ih =>
    rw [scanFrom, if_neg hblank, ← Lexeme.chars_append_rest c cs]
    exact @Cut.token start [] _ _ _ _ (fun _ h => absurd h List.not_mem_nil) (Lexeme.chars_ne_nil c cs)
      (Lexeme.isBlank_of_mem (Bool.eq_false_iff.mpr hblank)) ih

section
variable {start : Nat} {cs : List Char} {ts : List Token}

theorem Cut.exists_place (h : Cut start cs ts) : ∀ t ∈ ts, ∃ pre chars rest, cs = pre ++ (chars ++ rest) ∧
    chars ≠ [] ∧
    t.span = .ofOffsets (start + byteLength pre) (start + byteLength pre + byteLength chars) ∧
    (t.kind.mayHoldBlanks = false → ∀ c ∈ chars, isBlank c = false) := by
  induction h with
  | blanks => exact fun _ h => absurd h List.not_mem_nil
  | @token start gap chars rest kind ts hgap hsome hsolid hrest ih =>
    refine List.forall_mem_cons.mpr ⟨⟨gap, chars, rest, rfl, hsome, rfl, hsolid⟩, fun t ht => ?_⟩
    obtain ⟨pre, chars', rest', rfl, hsome', hspan, hsolid'⟩ := ih t ht
    have hstart : start + byteLength gap + byteLength chars + byteLength pre =
        start + byteLength (gap ++ (chars ++ pre)) := by
      rw [byteLength_append, byteLength_append]
      omega
    exact ⟨gap ++ (chars ++ pre), chars', rest', by simp, hsome', by rw [← hstart, hspan], hsolid'⟩

theorem Cut.pairwise (h : Cut start cs ts) (hsize : start + byteLength cs < 2 ^ 32) :
    ts.Pairwise fun s t => s.span.stop ≤ t.span.start := by
  induction h with
  | blanks => exact .nil
  | @token start gap chars rest kind ts hgap hsome hsolid hrest ih =>
    rw [byteLength_append, byteLength_append] at hsize
    refine List.pairwise_cons.mpr ⟨fun t ht => ?_, ih (by omega)⟩
    obtain ⟨pre, chars', rest', rfl, hsome', hspan, -⟩ := hrest.exists_place t ht
    rw [byteLength_append, byteLength_append] at hsize
    rw [UInt32.le_iff_toNat_le, hspan, Span.stop_ofOffsets (by omega), Span.start_ofOffsets (by omega)]
    omega

/-- A character that is no blank belongs to a token. -/
theorem Cut.exists_covers (h : Cut start cs ts) (hsize : start + byteLength cs < 2 ^ 32) :
    ∀ before c after, cs = before ++ c :: after → isBlank c = false →
      ∃ t ∈ ts, t.span.Covers (start + byteLength before) := by
  induction h with
  | @blanks start gap hgap =>
    rintro before c after rfl hc
    rw [hgap c (by simp)] at hc
    cases hc
  | @token start gap chars rest kind ts hgap hsome hsolid hrest ih =>
    intro before c after hcs hc
    have hlength := c.utf8Size_pos
    rw [byteLength_append, byteLength_append] at hsize
    rcases append_eq_cut hcs with ⟨tail, rfl⟩ | ⟨middle, rfl, hmiddle⟩
    · rw [hgap c (by simp)] at hc
      cases hc
    rcases append_eq_cut hmiddle with ⟨tail, rfl⟩ | ⟨later, rfl, hlater⟩
    · refine ⟨_, List.mem_cons_self, ?_⟩
      have hchars : byteLength (middle ++ c :: tail) = byteLength middle + (c.utf8Size + byteLength tail) := by
        rw [byteLength_append]
        rfl
      rw [Span.Covers, Span.start_ofOffsets (by omega), Span.stop_ofOffsets (by omega), byteLength_append]
      omega
    · obtain ⟨t, ht, hcovers⟩ := ih (by omega) later c after hlater hc
      refine ⟨t, List.mem_cons_of_mem _ ht, ?_⟩
      rwa [byteLength_append, byteLength_append, ← Nat.add_assoc, ← Nat.add_assoc]

end

/-- The spans of tokens are not empty, in order, apart from each other and cut the source between characters. What they
leave out are blanks, and only strings and comments hold blanks. -/
theorem scan_lossless {source : List Char} (hsize : byteLength source < 2 ^ 32) :
    (∀ t ∈ scan source, t.span.start < t.span.stop) ∧
    (scan source).Pairwise (fun s t => s.span.stop ≤ t.span.start) ∧
    (∀ t ∈ scan source, IsBoundary source t.span.start.toNat ∧ IsBoundary source t.span.stop.toNat) ∧
    (∀ before c after, source = before ++ c :: after →
      (∀ t ∈ scan source, ¬ t.span.Covers (byteLength before)) → isBlank c = true) ∧
    (∀ before c after, source = before ++ c :: after → isBlank c = true →
      ∀ t ∈ scan source, t.span.Covers (byteLength before) → t.kind = .string ∨ t.kind = .comment) := by
  have hcut : Cut 0 source (scan source) := cut_scanFrom 0 source
  -- the offsets at which a token starts and stops
  have hplace : ∀ t ∈ scan source, ∃ pre chars rest, source = pre ++ (chars ++ rest) ∧ chars ≠ [] ∧
      t.span.start.toNat = byteLength pre ∧ t.span.stop.toNat = byteLength pre + byteLength chars ∧
      (t.kind.mayHoldBlanks = false → ∀ c ∈ chars, isBlank c = false) := by
    intro t ht
    obtain ⟨pre, chars, rest, rfl, hsome, hspan, hsolid⟩ := hcut.exists_place t ht
    rw [byteLength_append, byteLength_append] at hsize
    refine ⟨pre, chars, rest, rfl, hsome, ?_, ?_, hsolid⟩
    · rw [hspan, Span.start_ofOffsets (by omega), Nat.zero_add]
    · rw [hspan, Span.stop_ofOffsets (by omega), Nat.zero_add]
  refine ⟨fun t ht => ?_, hcut.pairwise (by omega), fun t ht => ?_, fun before c after hsource hnone => ?_,
    fun before c after hsource hc t ht hcovers => ?_⟩
  · obtain ⟨pre, chars, rest, -, hsome, hstart, hstop, -⟩ := hplace t ht
    have := byteLength_pos hsome
    rw [UInt32.lt_iff_toNat_lt, hstart, hstop]
    omega
  · obtain ⟨pre, chars, rest, hsource, -, hstart, hstop, -⟩ := hplace t ht
    refine ⟨⟨pre, chars ++ rest, hsource, hstart⟩, pre ++ chars, rest, by rw [hsource, List.append_assoc], ?_⟩
    rw [hstop, byteLength_append]
  · cases hc : isBlank c with
    | true => rfl
    | false =>
      obtain ⟨t, ht, hcovers⟩ := hcut.exists_covers (by omega) before c after hsource hc
      rw [Nat.zero_add] at hcovers
      exact absurd hcovers (hnone t ht)
  · obtain ⟨pre, chars, rest, hpre, -, hstart, hstop, hsolid⟩ := hplace t ht
    rw [Span.Covers, hstart, hstop] at hcovers
    have hmem := mem_of_offset (hpre.symm.trans hsource) hcovers.1 hcovers.2
    cases hkind : t.kind with
    | string => exact .inl rfl
    | comment => exact .inr rfl
    | identifier | number | punct =>
      rw [hsolid (by rw [hkind]; rfl) c hmem] at hc
      cases hc

def mixedSource : List Char := "let é=7.x**2.5//∑ \n\"a\\\" b".toList

theorem scan_lossless_of_mixedSource : byteLength mixedSource < 2 ^ 32 ∧
    (scan mixedSource).map (fun t => (t.kind, t.span.start.toNat, t.span.stop.toNat)) =
      [(.identifier, 0, 3), (.identifier, 4, 6), (.punct, 6, 7), (.number, 7, 8), (.punct, 8, 9), (.identifier, 9, 10),
        (.punct, 10, 12), (.number, 12, 15), (.comment, 15, 21), (.string, 22, 28)] ∧
    (∀ t ∈ scan mixedSource, t.span.start < t.span.stop) ∧
    (scan mixedSource).Pairwise (fun s t => s.span.stop ≤ t.span.start) ∧
    (∀ t ∈ scan mixedSource, IsBoundary mixedSource t.span.start.toNat ∧
      IsBoundary mixedSource t.span.stop.toNat) ∧
    -- the blank behind `let` is outside all spans, those in the comment and in the string are not
    ((∀ t ∈ scan mixedSource, ¬ t.span.Covers 3) ∧ isBlank ' ' = true) ∧
    (∃ t ∈ scan mixedSource, t.span.Covers 20 ∧ (t.kind = .string ∨ t.kind = .comment)) ∧
    ∃ t ∈ scan mixedSource, t.span.Covers 26 ∧ (t.kind = .string ∨ t.kind = .comment) := by
  have hsize : byteLength mixedSource < 2 ^ 32 := by decide +kernel
  obtain ⟨hsome, hordered, hboundary, houtside, hinside⟩ := scan_lossless hsize
  have hnone : ∀ t ∈ scan mixedSource, ¬ t.span.Covers 3 := by decide +kernel
  refine ⟨hsize, by decide +kernel, hsome, hordered, hboundary, ⟨hnone, ?_⟩, ?_, ?_⟩
  · exact houtside "let".toList ' ' "é=7.x**2.5//∑ \n\"a\\\" b".toList (by decide +kernel) hnone
  · obtain ⟨t, ht, hcovers⟩ : ∃ t ∈ scan mixedSource, t.span.Covers 20 := by decide +kernel
    exact ⟨t, ht, hcovers, hinside "let é=7.x**2.5//∑".toList ' ' "\n\"a\\\" b".toList
      (by decide +kernel) rfl t ht hcovers⟩
  · obtain ⟨t, ht, hcovers⟩ : ∃ t ∈ scan mixedSource, t.span.Covers 26 := by decide +kernel
    exact ⟨t, ht, hcovers, hinside "let é=7.x**2.5//∑ \n\"a\\\"".toList ' ' "b".toList
      (by decide +kernel) rfl t ht hcovers⟩

end Token
end Bies
