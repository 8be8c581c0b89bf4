import Bies.Proofs.Printing

/-!
# What stands between tokens

Without its comments, a source is its tokens with gaps of blanks and comments between them. The span over two tokens
that follow each other reads as their texts with the gap between.
-/

namespace Bies

theorem byteLength_pos {cs : List Char} (h : cs ≠ []) : 0 < byteLength cs := by
  cases cs with
  | nil => exact absurd rfl h
  | cons c cs =>
    obtain ⟨n, hn, -⟩ := byteLength_cons c cs
    omega

theorem Span.start_ofOffsets {a b : Nat} (h : a < 2 ^ 32) : (Span.ofOffsets a b).start.toNat = a :=
  UInt32.toNat_ofNat_of_lt' h

theorem Span.stop_ofOffsets {a b : Nat} (h : b < 2 ^ 32) : (Span.ofOffsets a b).stop.toNat = b :=
  UInt32.toNat_ofNat_of_lt' h

def opensGap (c : Char) : Bool := isBlank c || c == '/'

theorem isDigit_of_opensGap {c : Char} (h : opensGap c = true) : c.isDigit = false := by
  rw [Bool.eq_false_iff]
  intro hdigit
  rw [opensGap, Outline.isBlank_eq_false (.inr hdigit), Bool.false_or, beq_iff_eq] at h
  rw [h] at hdigit
  cases hdigit

def IsGap (gap : List Char) : Prop := ∀ c ∈ gap.head?, opensGap c = true

theorem isGap_nil : IsGap [] := fun _ h => by cases h

theorem isGap_append {a b : List Char} (ha : a ≠ []) (h : IsGap a) : IsGap (a ++ b) := by
  cases a with
  | nil => exact absurd rfl ha
  | cons c a => exact h

namespace Lexeme

theorem head?_chars (c : Char) (cs : List Char) : (split c cs).chars.head? = some c := by
  simp only [split]
  repeat' split
  all_goals rfl

theorem opensGap_of_comment {c : Char} {cs : List Char} (h : (split c cs).kind = .comment) : opensGap c = true := by
  simp only [split] at h
  repeat' split at h
  all_goals try cases h
  next hslash =>
    rw [Bool.and_eq_true, decide_eq_true_eq] at hslash
    rw [hslash.1]
    rfl

end Lexeme

namespace Token

def Follows (t : Token) (before : List Char) : Prop :=
  t.span = .ofOffsets (byteLength before) (byteLength before + byteLength t.text.toList)

/-- The tokens of both lists stand in the text `cs`, one behind the other, with gaps before them. The texts
`before` and `before'` come first. -/
inductive Laid : List Char → List Char → List Char → List Token → List Token → Prop where
  | nil (before before' cs : List Char) : Laid before before' cs [] []
  | cons {before before' gap rest : List Char} {t t' : Token} {ts ts' : List Token} : IsGap gap → t.kind = t'.kind →
    t.text = t'.text → t.Follows (before ++ gap) → t'.Follows (before' ++ gap) → t.text.toList ≠ [] →
    Laid (before ++ gap ++ t.text.toList) (before' ++ gap ++ t.text.toList) rest ts ts' →
    Laid before before' (gap ++ (t.text.toList ++ rest)) (t :: ts) (t' :: ts')

section
variable {before before' cs : List Char} {t t' : Token} {ts ts' : List Token}

theorem Laid.first {chars rest : List Char} (hkind : t.kind = t'.kind) (htext : t.text.toList = chars)
    (htext' : t'.text.toList = chars) (ht : t.Follows before) (ht' : t'.Follows before') (hsome : chars ≠ [])
    (hrest : Laid (before ++ chars) (before' ++ chars) rest ts ts') :
    Laid before before' (chars ++ rest) (t :: ts) (t' :: ts') := by
  subst htext
  rw [← List.append_nil before] at ht hrest
  rw [← List.append_nil before'] at ht' hrest
  exact Laid.cons isGap_nil hkind (String.toList_inj.mp htext'.symm) ht ht' hsome hrest

theorem Laid.skip {skipped : List Char} (hne : skipped ≠ []) (hgap : IsGap skipped)
    (h : Laid (before ++ skipped) (before' ++ skipped) cs ts ts') : Laid before before' (skipped ++ cs) ts ts' := by
  cases h with
  | nil => exact .nil _ _ _
  | @cons _ _ gap rest t t' ts ts' _ hkind htext ht ht' hsome hrest =>
    rw [← List.append_assoc]
    rw [List.append_assoc before] at ht hrest
    rw [List.append_assoc before'] at ht' hrest
    exact .cons (isGap_append hne hgap) hkind htext ht ht' hsome hrest

theorem Laid.symm (h : Laid before before' cs ts ts') : Laid before' before cs ts' ts := by
  induction h with
  | nil => exact .nil _ _ _
  | cons hgap hkind htext ht ht' hsome _ ih =>
    rw [htext] at ih hsome ⊢
    exact .cons hgap hkind.symm htext.symm ht' ht hsome ih

end

/-- A scanned text is laid out so, its comments being part of the gaps. -/
theorem laid_scanFrom : ∀ (start : Nat) (cs : List Char) (start' : Nat) (before before' : List Char),
    byteLength before = start → byteLength before' = start' →
    Laid before before' cs ((scanFrom start cs).filter (·.kind ≠ .comment))
      ((scanFrom start' cs).filter (·.kind ≠ .comment)) := by
  intro start cs
  induction start, cs using scanFrom.induct with
  | case1 start =>
    intro start' before before' _ _
    rw [scanFrom, scanFrom]
    exact .nil _ _ _
  | case2 start c cs hblank ih =>
    intro start' before before' hstart hstart'
    rw [scanFrom, scanFrom, if_pos hblank, if_pos hblank]
    have hrest := ih (start' + c.utf8Size) (before ++ [c]) (before' ++ [c]) (by rw [byteLength_append, hstart]; rfl)
      (by rw [byteLength_append, hstart']; rfl)
    exact hrest.skip (by simp) (by simp [IsGap, opensGap, hblank])
  | case3 start c cs hblank lexeme stop ih =>
    intro start' before before' hstart hstart'
    rw [scanFrom, scanFrom, if_neg hblank, if_neg hblank]
    have hchars : c :: cs = lexeme.chars ++ lexeme.rest := (Lexeme.chars_append_rest c cs).symm
    have hrest := ih (start' + byteLength lexeme.chars) (before ++ lexeme.chars) (before' ++ lexeme.chars)
      (by rw [byteLength_append, hstart]) (by rw [byteLength_append, hstart'])
    rw [hchars]
    by_cases hkind : lexeme.kind = .comment
    · rw [List.filter_cons_of_neg (by simpa using hkind), List.filter_cons_of_neg (by simpa using hkind)]
      refine Laid.skip (Lexeme.chars_ne_nil c cs) ?_ hrest
      intro d hd
      rw [Lexeme.head?_chars, Option.mem_some_iff] at hd
      rw [← hd, Lexeme.opensGap_of_comment hkind]
    · rw [List.filter_cons_of_pos (by simpa using hkind), List.filter_cons_of_pos (by simpa using hkind)]
      exact Laid.first rfl String.toList_ofList String.toList_ofList (by rw [Follows, hstart, String.toList_ofList])
        (by rw [Follows, hstart', String.toList_ofList]) (Lexeme.chars_ne_nil c cs) hrest

section
variable {source before after gap : List Char} {m n t : Token}

theorem Follows.text_eq (h : t.Follows before) (hsource : before ++ (t.text.toList ++ after) = source)
    (hsize : byteLength source < 2 ^ 32) : t.span.text source = t.text := by
  rw [h, Span.text_middle hsource hsize, String.ofList_toList]

structure Neighbours (before gap : List Char) (m n : Token) : Prop where
  first : m.Follows before
  second : n.Follows (before ++ m.text.toList ++ gap)
  first_ne : m.text.toList ≠ []
  second_ne : n.text.toList ≠ []

theorem Neighbours.text_join (h : Neighbours before gap m n)
    (hsource : before ++ ((m.text.toList ++ (gap ++ n.text.toList)) ++ after) = source)
    (hsize : byteLength source < 2 ^ 32) :
    (m.span.join n.span).text source = .ofList (m.text.toList ++ (gap ++ n.text.toList)) ∧
      (gap = [] ↔ m.span.stop = n.span.start) := by
  obtain ⟨hm, hn, hmsome, hnsome⟩ := h
  have hlength : byteLength (before ++ m.text.toList ++ gap) = byteLength before + byteLength
    m.text.toList + byteLength gap := by
    rw [byteLength_append, byteLength_append]
  have hmiddle : byteLength (m.text.toList ++ (gap ++ n.text.toList)) =
      byteLength m.text.toList + (byteLength gap + byteLength n.text.toList) := by
    rw [byteLength_append, byteLength_append]
  have htotal : byteLength before + (byteLength m.text.toList + (byteLength gap + byteLength n.text.toList) +
      byteLength after) = byteLength source := by
    rw [← hsource, byteLength_append _ (_ ++ after), byteLength_append _ after, hmiddle]
  have hmpos := byteLength_pos hmsome
  have hnpos := byteLength_pos hnsome
  unfold Follows at hm hn
  rw [hlength] at hn
  constructor
  · rw [hm, hn, Span.join_ofOffsets
      (by omega) (by omega) (by omega) (by omega), ← Span.text_middle hsource hsize, hmiddle]
    simp only [Nat.add_assoc]
  · rw [hm, hn, ← UInt32.toNat_inj, Span.stop_ofOffsets (by omega), Span.start_ofOffsets (by omega)]
    constructor
    · rintro rfl
      rfl
    · intro h
      cases gap with
      | nil => rfl
      | cons c gap =>
        have := byteLength_pos (List.cons_ne_nil c gap)
        omega

section
variable {before' cs : List Char} {m' n' : Token} {ts ts' : List Token}

theorem Laid.text_eq (h : Laid before before' cs (t :: ts) ts') (hsource : before ++ (cs ++ after) = source)
    (hsize : byteLength source < 2 ^ 32) : t.span.text source = t.text := by
  obtain _ | @⟨_, _, gap, rest, _, _, _, _, -, -, -, ht, -, -, -⟩ := h
  have hplace : before ++ gap ++ (t.text.toList ++ (rest ++ after)) = source := by
    rw [← hsource]
    simp
  exact ht.text_eq hplace hsize

theorem Laid.neighbours (h : Laid before before' cs (m :: n :: ts) (m' :: n' :: ts')) :
    ∃ first gap rest, cs = first ++ ((m.text.toList ++ (gap ++ n.text.toList)) ++ rest) ∧
      IsGap gap ∧ m.text = m'.text ∧
      n.text = n'.text ∧ Neighbours (before ++ first) gap m n ∧ Neighbours (before' ++ first) gap m' n' := by
  obtain _ | @⟨_, _, first, _, _, _, _, _, -, -, hmtext, hm, hm', hmsome, h⟩ := h
  obtain _ | @⟨_, _, gap, rest, _, _, _, _, hgap, -, hntext, hn, hn', hnsome, -⟩ := h
  refine ⟨first, gap, rest, by simp, hgap, hmtext, hntext, ⟨hm, hn, hmsome, hnsome⟩, hm', ?_, ?_, ?_⟩
  · rw [← hmtext]
    exact hn'
  · rw [← hmtext]
    exact hmsome
  · rw [← hntext]
    exact hnsome

theorem Laid.text_join {source' after' : List Char} (h : Laid before before' cs (m :: n :: ts) (m' :: n' :: ts'))
    (hsource : before ++ (cs ++ after) = source) (hsource' : before' ++ (cs ++ after') = source')
    (hsize : byteLength source < 2 ^ 32) (hsize' : byteLength source' < 2 ^ 32) :
    (m.span.join n.span).text source = (m'.span.join n'.span).text source' := by
  obtain ⟨first, gap, rest, rfl, -, hm, hn, hmn, hmn'⟩ := h.neighbours
  have hplace : before ++ first ++ ((m.text.toList ++ (gap ++ n.text.toList)) ++ (rest ++ after)) = source := by
    rw [← hsource]
    simp
  have hplace' : before' ++ first ++ ((m'.text.toList ++ (gap ++ n'.text.toList)) ++ (rest ++ after')) = source' := by
    rw [← hsource', ← hm, ← hn]
    simp
  rw [(hmn.text_join hplace hsize).1, (hmn'.text_join hplace' hsize').1, hm, hn]

inductive Stand (source : List Char) : List Token → Prop where
  | nil : Stand source []
  | cons {t : Token} {ts : List Token} : t.span.text source = t.text →
    (∀ n ∈ ts.head?, ∃ gap, IsGap gap ∧
      (t.span.join n.span).text source = .ofList (t.text.toList ++ (gap ++ n.text.toList)) ∧
        (gap = [] ↔ t.span.stop = n.span.start)) →
    Stand source ts → Stand source (t :: ts)

theorem Laid.stand (hsize : byteLength source < 2 ^ 32) (h : Laid before before' cs ts ts') :
    before ++ cs = source → Stand source ts := by
  induction h with
  | nil => exact fun _ => .nil
  | @cons before before' gap rest t t' ts ts' hgap hkind htext ht ht' hsome hrest ih =>
    intro hsource
    have h : Laid before before' (gap ++ (t.text.toList ++ rest)) (t :: ts) (t' :: ts') :=
      .cons hgap hkind htext ht ht' hsome hrest
    have hplace : before ++ (gap ++ (t.text.toList ++ rest) ++ []) = source := by rw [List.append_nil, hsource]
    refine .cons (h.text_eq hplace hsize) (fun n hn => ?_) (ih (by rw [← hsource]; simp))
    obtain _ | hrest := hrest
    · cases hn
    · cases hn
      obtain ⟨first, gap, rest, hcs, hgap, -, -, hneighbours, -⟩ := h.neighbours
      have hplace : before ++ first ++ ((t.text.toList ++ (gap ++ n.text.toList)) ++ rest) = source := by
        rw [← hsource, hcs, List.append_assoc]
      exact ⟨gap, hgap, hneighbours.text_join hplace hsize⟩

end

theorem stand_scan (hsize : byteLength source < 2 ^ 32) : Stand source ((scan source).filter (·.kind ≠ .comment)) :=
  (laid_scanFrom 0 source 0 [] [] rfl rfl).stand hsize rfl

end

end Token
end Bies
