import Bies.Proofs.Relayout

/-!
# Brackets in a text

A parenthesis that is a token of its own cuts a text in two: what stands before it and what comes with it are
scanned as if the other were not there. Only a string or a comment could reach over it.
-/

namespace Bies

def isParenthesis (c : Char) : Bool := c == '(' || c == ')'

section
variable {c : Char} (hc : isParenthesis c = true)

include hc

theorem isParenthesis_cases : c = '(' ∨ c = ')' := by
  simpa [isParenthesis] using hc

theorem isBlank_of_isParenthesis : isBlank c = false := by
  obtain rfl | rfl := isParenthesis_cases hc <;> rfl

theorem isDigit_of_isParenthesis : c.isDigit = false := by
  obtain rfl | rfl := isParenthesis_cases hc <;> rfl

theorem isIdentifierStart_of_isParenthesis : isIdentifierStart c = false := by
  obtain rfl | rfl := isParenthesis_cases hc <;> decide +kernel

theorem isIdentifierPart_of_isParenthesis : isIdentifierPart c = false := by
  obtain rfl | rfl := isParenthesis_cases hc <;> decide +kernel

theorem isPair_of_isParenthesis (d : Char) : isPair c d = false ∧ isPair d c = false := by
  obtain rfl | rfl := isParenthesis_cases hc <;> simp [isPair]

theorem splitString_parenthesis (escaped : Bool) (cs : List Char) : (splitString escaped (cs ++ [c])).2 = [] ∨
    ∀ tail, splitString escaped (cs ++ tail) = ((splitString escaped cs).1, (splitString escaped cs).2 ++ tail) := by
  induction cs generalizing escaped with
  | nil =>
    left
    obtain rfl | rfl := isParenthesis_cases hc <;> rfl
  | cons d cs ih =>
    simp only [List.cons_append, splitString]
    split
    · exact .inr fun tail => rfl
    · obtain h | h := ih (decide (d = '\\') && !escaped)
      · exact .inl h
      · exact .inr fun tail => by rw [h tail]

omit hc in
theorem takeWhile_append_cons {p : Char → Bool} (hp : p c = false) (cs tail : List Char) :
    (cs ++ c :: tail).takeWhile p = cs.takeWhile p ∧ (cs ++ c :: tail).dropWhile p = cs.dropWhile p ++ c :: tail := by
  induction cs with
  | nil => simp [hp]
  | cons d cs ih =>
    simp only [List.cons_append, List.takeWhile_cons, List.dropWhile_cons]
    split
    · exact ⟨by rw [ih.1], ih.2⟩
    · exact ⟨rfl, rfl⟩

theorem splitNumber_parenthesis (cs tail : List Char) :
    splitNumber (cs ++ c :: tail) = ((splitNumber cs).1, (splitNumber cs).2 ++ c :: tail) := by
  have hpoint : c ≠ '.' := by obtain rfl | rfl := isParenthesis_cases hc <;> decide
  have hdigit := isDigit_of_isParenthesis hc
  obtain ⟨htake, hdrop⟩ := takeWhile_append_cons hdigit cs tail
  unfold splitNumber
  dsimp only
  rw [htake, hdrop]
  rcases cs.dropWhile Char.isDigit with _ | ⟨d, _ | ⟨e, rest⟩⟩
  · simp [hpoint]
  · by_cases hd : d = '.'
    · simp [hd, hdigit]
    · simp [hd]
  · by_cases hd : d = '.'
    · subst hd
      simp only [List.cons_append]
      obtain ⟨htake, hdrop⟩ := takeWhile_append_cons hdigit rest tail
      split
      · rw [htake, hdrop]
      · rfl
    · simp [hd]

theorem dropWhile_line_parenthesis (cs : List Char) : (cs ++ [c]).dropWhile (· ≠ '\n') = [] ∨
    ∀ tail, (cs ++ tail).takeWhile (· ≠ '\n') = cs.takeWhile (· ≠ '\n') ∧
      (cs ++ tail).dropWhile (· ≠ '\n') = cs.dropWhile (· ≠ '\n') ++ tail := by
  induction cs with
  | nil =>
    left
    obtain rfl | rfl := isParenthesis_cases hc <;> rfl
  | cons d cs ih =>
    simp only [List.cons_append, List.takeWhile_cons, List.dropWhile_cons]
    split
    · obtain h | h := ih
      · exact .inl h
      · exact .inr fun tail => ⟨by rw [(h tail).1], (h tail).2⟩
    · exact .inr fun tail => ⟨rfl, rfl⟩

omit hc in
theorem Lexeme.kind_ne {d : Char} {cs : List Char} (hquote : d ≠ '"') (hslash : d ≠ '/') :
    ¬((split d cs).kind = .string ∨ (split d cs).kind = .comment) := by
  rcases split_cases d cs with rfl | ⟨rfl, -⟩ | hdigit | hstart |
    ⟨hsign, ⟨e, rest, rfl, hpair⟩ | ⟨hno, hpair⟩⟩
  · exact absurd rfl hquote
  · exact absurd rfl hslash
  · rw [split_number hdigit]
    rintro (h | h) <;> cases h
  · rw [split_word hstart]
    rintro (h | h) <;> cases h
  · rw [split_pair hsign hpair]
    rintro (h | h) <;> cases h
  · rw [split_single hsign hno hpair]
    rintro (h | h) <;> cases h

/-- A token that is neither a string nor a comment ends before a parenthesis; one of these may go on over it. -/
theorem Lexeme.split_parenthesis (d : Char) (cs : List Char) :
    ((split d (cs ++ [c])).rest = [] ∧
      ((split d (cs ++ [c])).kind = .string ∨ (split d (cs ++ [c])).kind = .comment)) ∨
    ∀ tail, split d (cs ++ c :: tail) = ⟨(split d cs).kind, (split d cs).chars,
      (split d cs).rest ++ c :: tail⟩ := by
  have hslash : c ≠ '/' := by obtain rfl | rfl := isParenthesis_cases hc <;> decide
  have hhead : ∀ tail, (cs ++ c :: tail).head? = some '/' ↔ cs.head? = some '/' := by
    intro tail
    cases cs with
    | nil => simpa using hslash
    | cons => rfl
  rcases split_cases d cs with rfl | ⟨rfl, hcomment⟩ | hdigit | hstart |
    ⟨hsign, ⟨e, rest, rfl, hpair⟩ | ⟨hno, hpair⟩⟩
  · obtain h | h := splitString_parenthesis hc false cs
    · exact .inl ⟨h, .inl rfl⟩
    · exact .inr fun tail => by rw [split_string, split_string, h]
  · obtain h | h := dropWhile_line_parenthesis hc cs
    · rw [split_comment ((hhead []).mpr hcomment)]
      exact .inl ⟨h, .inr rfl⟩
    · right
      intro tail
      rw [split_comment hcomment, split_comment ((hhead tail).mpr hcomment), (h _).1, (h _).2]
  · right
    intro tail
    rw [split_number hdigit, split_number hdigit, splitNumber_parenthesis hc]
  · right
    intro tail
    obtain ⟨htake, hdrop⟩ := takeWhile_append_cons (isIdentifierPart_of_isParenthesis hc) cs tail
    rw [split_word hstart, split_word hstart, htake, hdrop]
  · right
    intro tail
    rw [List.cons_append, split_pair hsign hpair, split_pair hsign hpair]
  · right
    intro tail
    rw [split_single hsign hno hpair, split_single hsign fun hd h => hno hd ((hhead tail).mp h)]
    intro e he
    cases cs with
    | nil =>
      cases he
      exact (isPair_of_isParenthesis hc d).2
    | cons => exact hpair e he

end

namespace Token

variable {c : Char} (hc : isParenthesis c = true) {start : Nat}

include hc

theorem scanFrom_parenthesis (tail : List Char) : scanFrom start (c :: tail) =
    ⟨.punct, .ofOffsets start (start + 1), .ofList [c]⟩ :: scanFrom (start + 1) tail := by
  have hsign : Lexeme.IsSign c := by
    refine ⟨?_, isDigit_of_isParenthesis hc, isIdentifierStart_of_isParenthesis hc⟩
    obtain rfl | rfl := isParenthesis_cases hc <;> decide
  have hslash : c ≠ '/' := by obtain rfl | rfl := isParenthesis_cases hc <;> decide
  have hlength : byteLength [c] = 1 := by obtain rfl | rfl := isParenthesis_cases hc <;> rfl
  rw [scanFrom_token (isBlank_of_isParenthesis hc)
    (Lexeme.split_single hsign (fun h => absurd h hslash) fun d _ => (isPair_of_isParenthesis hc d).1), hlength]

theorem scanFrom_ne_nil (start : Nat) (cs : List Char) : scanFrom start (cs ++ [c]) ≠ [] := by
  induction start, cs using scanFrom.induct with
  | case1 start =>
    rw [List.nil_append, scanFrom_parenthesis hc]
    exact List.cons_ne_nil _ _
  | case2 start d cs hblank ih =>
    rw [List.cons_append, scanFrom, if_pos hblank]
    exact ih
  | case3 start d cs hblank =>
    rw [List.cons_append, scanFrom, if_neg hblank]
    exact List.cons_ne_nil _ _

/-- If a parenthesis behind the text is a token, it cuts every text. -/
theorem scanFrom_append (start : Nat) (cs : List Char)
    (h : (scanFrom start (cs ++ [c])).getLast?.any (·.isSymbol (.ofList [c])) = true) (tail : List Char) :
    scanFrom start (cs ++ c :: tail) = scanFrom start cs ++ scanFrom (start + byteLength cs) (c :: tail) := by
  induction start, cs using scanFrom.induct with
  | case1 start =>
    rw [scanFrom]
    rfl
  | case2 start d cs hblank ih =>
    rw [List.cons_append, scanFrom, if_pos hblank] at h ⊢
    rw [scanFrom, if_pos hblank, ih h, Nat.add_assoc]
    rfl
  | case3 start d cs hblank lexeme stop ih =>
    have hd : isBlank d = false := Bool.eq_false_iff.mpr hblank
    rw [List.cons_append, scanFrom_token hd rfl] at h
    obtain ⟨hrest, hkind⟩ | hsplit := Lexeme.split_parenthesis hc d cs
    · -- the last token is a string or a comment then
      rw [hrest, scanFrom, List.getLast?_singleton, Option.any_some, isSymbol] at h
      obtain hkind | hkind := hkind <;> rw [hkind] at h <;> cases h
    · rw [hsplit [], List.getLast?_cons_of_ne_nil (scanFrom_ne_nil hc _ _)] at h
      have hlength : byteLength (d :: cs) = byteLength lexeme.chars + byteLength lexeme.rest := by
        rw [← Lexeme.chars_append_rest, byteLength_append]
      rw [List.cons_append, scanFrom_token hd (hsplit tail), scanFrom_token hd rfl, List.cons_append,
        hlength, ← Nat.add_assoc]
      exact congrArg _ (ih h)

theorem getLast?_scanFrom (start : Nat) (cs : List Char) (h : ∀ d ∈ cs, d ≠ '"' ∧ d ≠ '/') :
    (scanFrom start (cs ++ [c])).getLast?.any (·.isSymbol (.ofList [c])) = true := by
  induction start, cs using scanFrom.induct with
  | case1 start =>
    rw [List.nil_append, scanFrom_parenthesis hc, scanFrom, List.getLast?_singleton, Option.any_some]
    simp [isSymbol]
  | case2 start d cs hblank ih =>
    rw [List.cons_append, scanFrom, if_pos hblank]
    exact ih fun d hd => h d (List.mem_cons_of_mem _ hd)
  | case3 start d cs hblank lexeme stop ih =>
    have hd : isBlank d = false := Bool.eq_false_iff.mpr hblank
    obtain ⟨-, hkind⟩ | hsplit := Lexeme.split_parenthesis hc d cs
    · obtain ⟨hquote, hslash⟩ := h d List.mem_cons_self
      exact absurd hkind (Lexeme.kind_ne hquote hslash)
    · rw [List.cons_append, scanFrom_token hd (hsplit []), List.getLast?_cons_of_ne_nil (scanFrom_ne_nil hc _ _)]
      refine ih fun e he => h e ?_
      rw [← Lexeme.chars_append_rest]
      exact List.mem_append_right _ he

end Token
end Bies
