import Bies.Token.Scan
import Mathlib.Algebra.Group.Nat.Defs

/-!
# The text of a token

In a source of less than 2³² bytes the span of every token reads as the token's own text.
-/

namespace Bies

theorem byteLength_append (a b : List Char) : byteLength (a ++ b) = byteLength a + byteLength b := by
  induction a with
  | nil => simp [byteLength]
  | cons c a ih => simp only [List.cons_append, byteLength, ih]; omega

theorem byteLength_cons (c : Char) (cs : List Char) :
    ∃ n, byteLength (c :: cs) = n + 1 ∧ c.utf8Size ≤ n + 1 ∧ n + 1 - c.utf8Size = byteLength cs := by
  have := c.utf8Size_pos
  exact ⟨c.utf8Size + byteLength cs - 1, by simp only [byteLength]; omega, by omega, by omega⟩

theorem dropBytes?_append : ∀ a b : List Char, dropBytes? (byteLength a) (a ++ b) = some b
  | [], b => by
    unfold byteLength dropBytes?
    rfl
  | c :: cs, b => by
    obtain ⟨n, hn, hle, hsub⟩ := byteLength_cons c cs
    rw [hn, List.cons_append, dropBytes?, if_pos hle, hsub]
    exact dropBytes?_append cs b

theorem takeBytes?_append : ∀ a b : List Char, takeBytes? (byteLength a) (a ++ b) = some a
  | [], b => by
    unfold byteLength takeBytes?
    rfl
  | c :: cs, b => by
    obtain ⟨n, hn, hle, hsub⟩ := byteLength_cons c cs
    rw [hn, List.cons_append, takeBytes?, if_pos hle, hsub, takeBytes?_append cs b]
    rfl

theorem sliceBytes?_middle (before middle after : List Char) :
    sliceBytes? (byteLength before) (byteLength before + byteLength middle) (before ++ (middle ++ after)) =
      some middle := by
  rw [sliceBytes?, if_pos (Nat.le_add_right _ _), dropBytes?_append, Option.bind_some, Nat.add_sub_cancel_left,
    takeBytes?_append]

theorem Span.text_middle {before middle after source : List Char} (hs : before ++ (middle ++ after) = source)
    (hsize : byteLength source < 2 ^ 32) :
    (Span.ofOffsets (byteLength before) (byteLength before + byteLength middle)).text source = .ofList middle := by
  have hlen : byteLength before + (byteLength middle + byteLength after) = byteLength source := by
    rw [← hs, byteLength_append, byteLength_append]
  unfold Span.text Span.ofOffsets
  rw [UInt32.toNat_ofNat_of_lt' (by simp [UInt32.size]; omega),
    UInt32.toNat_ofNat_of_lt' (by simp [UInt32.size]; omega), ← hs, sliceBytes?_middle]
  rfl

theorem Span.length?_ofOffsets {a b : Nat} (hab : a ≤ b) (hb : b < 2 ^ 32) :
    (Span.ofOffsets a b).length? = some (b - a) := by
  have ha : (UInt32.ofNat a).toNat = a := UInt32.toNat_ofNat_of_lt' (by simp [UInt32.size]; omega)
  have hb : (UInt32.ofNat b).toNat = b := UInt32.toNat_ofNat_of_lt' (by simp [UInt32.size]; omega)
  rw [Span.length?, Span.ofOffsets, if_pos (by rwa [UInt32.le_iff_toNat_le, ha, hb]), ha, hb]

theorem Span.join_ofOffsets {a b c d : Nat} (hab : a < b) (hbc : b ≤ c) (hcd : c < d) (hd : d < 2 ^ 32) :
    (Span.ofOffsets a b).join (.ofOffsets c d) = .ofOffsets a d := by
  have ha : (UInt32.ofNat a).toNat = a := UInt32.toNat_ofNat_of_lt' (by simp [UInt32.size]; omega)
  have hb : (UInt32.ofNat b).toNat = b := UInt32.toNat_ofNat_of_lt' (by simp [UInt32.size]; omega)
  have hc : (UInt32.ofNat c).toNat = c := UInt32.toNat_ofNat_of_lt' (by simp [UInt32.size]; omega)
  have hd : (UInt32.ofNat d).toNat = d := UInt32.toNat_ofNat_of_lt' (by simp [UInt32.size]; omega)
  have hac' : UInt32.ofNat a ≤ UInt32.ofNat c := by rw [UInt32.le_iff_toNat_le]; omega
  have hbd' : UInt32.ofNat b ≤ UInt32.ofNat d := by rw [UInt32.le_iff_toNat_le]; omega
  have hne₁ : UInt32.ofNat a ≠ UInt32.ofNat b := fun h => by rw [h] at ha; omega
  have hne₂ : UInt32.ofNat c ≠ UInt32.ofNat d := fun h => by rw [h] at hc; omega
  simp only [Span.join, Span.ofOffsets, Span.isEmpty, beq_iff_eq, hne₁, hne₂, if_false, Span.mk.injEq]
  exact ⟨if_pos hac', if_pos hbd'⟩

theorem Lexeme.isIdentifierPart_of_mem {c : Char} {cs : List Char} (hkind : (split c cs).kind = .identifier) :
    ∀ d ∈ (split c cs).chars, isIdentifierPart d = true := by
  simp only [split] at hkind ⊢
  repeat' split at hkind
  all_goals try cases hkind
  next hstart =>
    rw [if_neg ‹_›, if_neg ‹_›, if_neg ‹_›, if_pos hstart]
    intro d hd
    rcases List.mem_cons.mp hd with rfl | hd
    · simp only [isIdentifierStart, Bool.or_eq_true] at hstart
      simp only [isIdentifierPart, Bool.or_eq_true]
      exact hstart.elim (fun h => Or.inl (Or.inl h)) Or.inr
    · exact List.all_eq_true.mp List.all_takeWhile d hd

namespace Token

theorem exists_split_of_mem_scanFrom {t : Token} : ∀ (start : Nat) (cs : List Char), t ∈ scanFrom start cs →
    ∃ before c rest, cs = before ++ c :: rest ∧ t.kind = (Lexeme.split c rest).kind ∧
      t.text.toList = (Lexeme.split c rest).chars ∧
      t.span = .ofOffsets (start + byteLength before)
        (start + byteLength before + byteLength (Lexeme.split c rest).chars) := by
  intro start cs
  induction start, cs using scanFrom.induct with
  | case1 start =>
    intro ht
    simp [scanFrom] at ht
  | case2 start c cs hblank ih =>
    intro ht
    rw [scanFrom, if_pos hblank] at ht
    obtain ⟨before, d, rest, rfl, hkind, htext, hspan⟩ := ih ht
    exact ⟨c :: before, d, rest, rfl, hkind, htext, by rw [hspan, byteLength, ← Nat.add_assoc]⟩
  | case3 start c cs hblank lexeme stop ih =>
    intro ht
    rw [scanFrom, if_neg hblank] at ht
    rcases List.mem_cons.mp ht with rfl | ht
    · exact ⟨[], c, cs, rfl, rfl, String.toList_ofList, rfl⟩
    · obtain ⟨before, d, rest, hrest, hkind, htext, hspan⟩ := ih ht
      refine ⟨lexeme.chars ++ before, d, rest, ?_, hkind, htext, ?_⟩
      · rw [List.append_assoc, ← hrest]
        exact (Lexeme.chars_append_rest c cs).symm
      · rw [hspan, byteLength_append, ← Nat.add_assoc]

theorem exists_split_of_mem_scan {source : List Char} {t : Token} (ht : t ∈ scan source) :
    ∃ before c rest, source = before ++ c :: rest ∧ t.kind = (Lexeme.split c rest).kind ∧
      t.text.toList = (Lexeme.split c rest).chars ∧
      t.span = .ofOffsets (byteLength before) (byteLength before + byteLength (Lexeme.split c rest).chars) := by
  simpa only [Nat.zero_add] using exists_split_of_mem_scanFrom 0 source ht

theorem text_of_mem_scan {source : List Char} (hsize : byteLength source < 2 ^ 32) {t : Token}
    (ht : t ∈ scan source) : t.span.text source = t.text := by
  obtain ⟨before, c, rest, rfl, -, htext, hspan⟩ := exists_split_of_mem_scan ht
  rw [hspan, Span.text_middle (by rw [Lexeme.chars_append_rest]) hsize, ← htext, String.ofList_toList]

theorem length?_of_mem_scan {source : List Char} (hsize : byteLength source < 2 ^ 32) {t : Token}
    (ht : t ∈ scan source) : t.span.length? = some (byteLength t.text.toList) := by
  obtain ⟨before, c, rest, rfl, -, htext, hspan⟩ := exists_split_of_mem_scan ht
  rw [← Lexeme.chars_append_rest c rest, byteLength_append, byteLength_append] at hsize
  rw [hspan, htext, Span.length?_ofOffsets (Nat.le_add_right _ _) (by omega), Nat.add_sub_cancel_left]

theorem isIdentifierPart_of_mem_scanFrom (start : Nat) (cs : List Char) (t : Token) (ht : t ∈ scanFrom start cs)
    (hkind : t.kind = .identifier) : ∀ c ∈ t.text.toList, isIdentifierPart c = true := by
  obtain ⟨before, c, rest, -, hsplit, htext, -⟩ := exists_split_of_mem_scanFrom start cs ht
  rw [htext]
  exact Lexeme.isIdentifierPart_of_mem (hsplit ▸ hkind)

/-! ## Symbols -/

theorem eq_of_isSymbol {t : Token} {text : String} (h : t.isSymbol text = true) : t.text = text := by
  simp only [isSymbol, Bool.and_eq_true, beq_iff_eq] at h
  exact h.2

theorem isSymbol_of_isSymbol {t : Token} {text : String} (h : t.isSymbol text = true) (other : String) :
    t.isSymbol other = (text == other) := by
  rw [isSymbol, Bool.and_eq_true, beq_iff_eq] at h
  rw [isSymbol, h.1, h.2, Bool.true_and]

theorem kind_eq_punct {t : Token} {text : String} (h : t.isSymbol text = true) (hkind : t.kind ≠ .identifier) :
    t.kind = .punct := by
  rw [isSymbol, Bool.and_eq_true, Bool.or_eq_true, beq_iff_eq, beq_iff_eq] at h
  exact h.1.resolve_right hkind

def IsPunct (t : Token) (text : String) : Prop := t.kind = .punct ∧ t.text = text

theorem IsPunct.isSymbol {t : Token} {text : String} (h : t.IsPunct text) : t.isSymbol text = true := by
  simp [Token.isSymbol, h.1, h.2]

/-- A name is made of the characters of names. -/
def IsNamed (t : Token) : Prop := t.kind = .identifier → ∀ c ∈ t.text.toList, isIdentifierPart c = true

def Named (us : List Token) : Prop := ∀ u ∈ us, u.IsNamed

theorem named_append {us vs : List Token} : Named (us ++ vs) ↔ Named us ∧ Named vs := List.forall_mem_append

theorem named_cons {u : Token} {us : List Token} : Named (u :: us) ↔ u.IsNamed ∧ Named us := List.forall_mem_cons

theorem Named.subset {us vs : List Token} (h : Named vs) (hus : us ⊆ vs) : Named us := fun u hu => h u (hus hu)

theorem named_scan (source : List Char) : Named ((scan source).filter (·.kind ≠ .comment)) :=
  fun u hu => isIdentifierPart_of_mem_scanFrom 0 source u (List.mem_filter.mp hu).1

theorem IsNamed.isSymbol_eq {t : Token} (h : t.IsNamed) (hkind : t.kind = .identifier) {text : String}
    (htext : text.toList.all isIdentifierPart = false := by decide +kernel) : t.isSymbol text = false := by
  rw [isSymbol, Bool.and_eq_false_iff]
  refine .inr (beq_false_of_ne ?_)
  rintro rfl
  exact absurd (List.all_eq_true.mpr (h hkind)) (by rw [htext]; decide)

theorem IsNamed.isPunct {t : Token} {text : String} (h : t.IsNamed) (ht : t.isSymbol text = true)
    (htext : text.toList.all isIdentifierPart = false := by decide +kernel) : t.IsPunct text := by
  have hkind : t.kind ≠ .identifier := fun hkind => by simp [h.isSymbol_eq hkind htext] at ht
  exact ⟨kind_eq_punct ht hkind, eq_of_isSymbol ht⟩

end Token
end Bies
