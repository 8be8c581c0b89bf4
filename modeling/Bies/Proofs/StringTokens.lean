import Bies.Tree.Parse
import Bies.Proofs.TokenText
import Mathlib.Algebra.Ring.Parity
import Mathlib.Data.List.Induction

/-!
# Where strings end

The scanner and the parser look for the end of a string on their own. They agree: the parser takes a string token for
closed if and only if the scanner stopped at a quote, which is a quote behind an even run of backslashes after quotes
that all stand behind odd ones. A token that is not closed runs to the end of the source.
-/

namespace Bies

def backslashRun (cs : List Char) : Nat := (cs.reverse.takeWhile (· = '\\')).length

/-- A quote, characters among which every quote stands behind an odd run of backslashes, and a quote behind an
even one. -/
def IsClosedString (text : List Char) : Prop :=
  ∃ body, text = '"' :: (body ++ ['"']) ∧
    (∀ before after, body = before ++ '"' :: after → Odd (backslashRun before)) ∧
    Even (backslashRun body)

def escapedAfter (escaped : Bool) (cs : List Char) : Bool := cs.foldl (fun escaped c => c = '\\' && !escaped) escaped

theorem backslashRun_concat (cs : List Char) (c : Char) :
    backslashRun (cs ++ [c]) = if c = '\\' then backslashRun cs + 1 else 0 := by
  by_cases hc : c = '\\' <;> simp [backslashRun, hc]

theorem escapedAfter_eq_odd (cs : List Char) : escapedAfter false cs = true ↔ Odd (backslashRun cs) := by
  induction cs using List.reverseRecOn with
  | nil => simp [escapedAfter, backslashRun]
  | append_singleton cs c ih =>
    rw [backslashRun_concat]
    by_cases hc : c = '\\'
    · rw [if_pos hc, Nat.odd_add_one, ← ih]
      simp [escapedAfter, hc]
    · simp [escapedAfter, hc]

namespace Parser

theorem closesAtEnd_iff {escaped : Bool} {cs : List Char} : closesAtEnd escaped cs = true ↔
    ∃ body, cs = body ++ ['"'] ∧
      (∀ before after, body = before ++ '"' :: after → escapedAfter escaped before = true) ∧
      escapedAfter escaped body = false := by
  induction cs generalizing escaped with
  | nil => simp [closesAtEnd]
  | cons c cs ih =>
    rw [closesAtEnd]
    by_cases hquote : (c = '"' && !escaped) = true
    · obtain ⟨rfl, rfl⟩ : c = '"' ∧ escaped = false := by simpa using hquote
      rw [if_pos hquote, List.isEmpty_iff]
      constructor
      · rintro rfl
        exact ⟨[], rfl, by simp, rfl⟩
      · rintro ⟨body, hcs, hquotes, -⟩
        cases body with
        | nil => simpa using hcs
        | cons d body =>
          -- The first character is a quote that nothing hides.
          obtain ⟨rfl, -⟩ := List.cons.inj hcs
          exact absurd (hquotes [] body rfl) (by simp [escapedAfter])
    · rw [if_neg hquote, ih]
      constructor
      · rintro ⟨body, rfl, hquotes, hend⟩
        refine ⟨c :: body, rfl, ?_, hend⟩
        intro before after hbody
        cases before with
        | nil =>
          obtain ⟨rfl, -⟩ := List.cons.inj hbody
          simpa [escapedAfter] using hquote
        | cons d before =>
          obtain ⟨rfl, hrest⟩ := List.cons.inj hbody
          exact hquotes before after hrest
      · rintro ⟨body, hcs, hquotes, hend⟩
        cases body with
        | nil =>
          obtain ⟨rfl, -⟩ := List.cons.inj hcs
          exact absurd hend (by simpa [escapedAfter] using hquote)
        | cons d body =>
          obtain ⟨rfl, rfl⟩ := List.cons.inj hcs
          exact ⟨body, rfl, fun before after h => hquotes (c :: before) after (by rw [h]; rfl), hend⟩

theorem isTerminatedString_iff {text : List Char} : isTerminatedString text = true ↔ IsClosedString text := by
  unfold isTerminatedString IsClosedString
  split
  next body => simp [closesAtEnd_iff, ← escapedAfter_eq_odd, ← Nat.not_odd_iff_even]
  next h =>
    refine ⟨(fun hfalse => by cases hfalse), ?_⟩
    rintro ⟨body, rfl, -⟩
    exact absurd rfl (h _)

end Parser

/-! ## The scanner next to the parser -/

theorem splitString_of_closesAtEnd {escaped : Bool} {inside : List Char} (h : Parser.closesAtEnd escaped inside = true)
    (tail : List Char) : splitString escaped (inside ++ tail) = (inside, tail) := by
  induction inside generalizing escaped with
  | nil => simp [Parser.closesAtEnd] at h
  | cons c inside ih =>
    rw [Parser.closesAtEnd] at h
    by_cases hquote : (c = '"' && !escaped) = true
    · rw [if_pos hquote, List.isEmpty_iff] at h
      simp [splitString, hquote, h]
    · rw [if_neg hquote] at h
      simp [splitString, hquote, ih h]

theorem closesAtEnd_or_rest_eq_nil (escaped : Bool) (cs : List Char) :
    Parser.closesAtEnd escaped (splitString escaped cs).1 = true ∨ (splitString escaped cs).2 = [] := by
  induction cs generalizing escaped with
  | nil => exact .inr rfl
  | cons c cs ih =>
    by_cases hquote : (c = '"' && !escaped) = true
    · simp [splitString, Parser.closesAtEnd, hquote]
    · simpa [splitString, Parser.closesAtEnd, hquote] using ih _

namespace Lexeme

theorem first_of_string {c : Char} {cs : List Char} (h : (split c cs).kind = .string) : c = '"' := by
  by_contra hc
  simp only [split, if_neg hc] at h
  repeat' split at h
  all_goals cases h

/-- The parser's answer says whether the scanner stops behind the text whatever follows. -/
theorem isTerminatedString_iff_split {body : List Char} : Parser.isTerminatedString ('"' :: body) = true ↔
    ∀ tail, split '"' (body ++ tail) = ⟨.string, '"' :: body, tail⟩ := by
  simp only [split, if_true, mk.injEq, List.cons.injEq, true_and]
  constructor
  · intro h tail
    simp [splitString_of_closesAtEnd h tail]
  · intro h
    obtain ⟨hinside, hrest⟩ := h ['"']
    rcases closesAtEnd_or_rest_eq_nil false (body ++ ['"']) with hclosed | hnil
    · rwa [hinside] at hclosed
    · simp [hrest] at hnil

end Lexeme

namespace Token

/-- What is said of the text under the span of a string token; a source of 2³² bytes or more is left out, as
spans count modulo 2³². -/
theorem string_ends_of_mem_scan {source text : List Char} {t : Token} (hsize : byteLength source < 2 ^ 32)
    (ht : t ∈ scan source) (hkind : t.kind = .string) (htext : t.span.text source = .ofList text) :
    (Parser.isTerminatedString text = true ↔ IsClosedString text) ∧
    (Parser.isTerminatedString text = true ↔
      ∀ tail, Lexeme.split '"' (text.tail ++ tail) = ⟨.string, text, tail⟩) ∧
    ∃ before after, source = before ++ (text ++ after) ∧
      t.span = .ofOffsets (byteLength before) (byteLength before + byteLength text) ∧
      Lexeme.split '"' (text.tail ++ after) = ⟨.string, text, after⟩ ∧
      (Parser.isTerminatedString text = false → after = []) := by
  have hread : t.text.toList = text := by rw [← text_of_mem_scan hsize ht, htext, String.toList_ofList]
  obtain ⟨before, c, cs, rfl, hsplit, hchars, hspan⟩ := exists_split_of_mem_scan ht
  obtain rfl := Lexeme.first_of_string (hsplit ▸ hkind)
  rw [hread] at hchars
  rw [← hchars] at hspan
  have hbody : text = '"' :: (splitString false cs).1 := hchars
  subst hbody
  refine ⟨Parser.isTerminatedString_iff, Lexeme.isTerminatedString_iff_split, before, (splitString false cs).2, ?_,
    hspan, ?_, ?_⟩
  · rw [List.cons_append, splitString_append]
  · rw [List.tail_cons, splitString_append]
    rfl
  · intro hopen
    exact (closesAtEnd_or_rest_eq_nil false cs).resolve_left (by simpa [Parser.isTerminatedString] using hopen)

def slashedSource : List Char := "\"\\\\\" \"\\\"".toList

def closedToken : Token := ⟨.string, .ofOffsets 0 4, "\"\\\\\""⟩

def openToken : Token := ⟨.string, .ofOffsets 5 8, "\"\\\""⟩

theorem string_ends_in_slashedSource : scan slashedSource = [closedToken, openToken] ∧
    IsClosedString (closedToken.span.text slashedSource).toList ∧
    ¬ IsClosedString (openToken.span.text slashedSource).toList ∧
    ∃ before, slashedSource = before ++ (openToken.span.text slashedSource).toList := by
  have hscan : scan slashedSource = [closedToken, openToken] := by decide +kernel
  have hsize : byteLength slashedSource < 2 ^ 32 := by decide +kernel
  have hopen : Parser.isTerminatedString (openToken.span.text slashedSource).toList = false := by decide +kernel
  obtain ⟨hclosed, -⟩ :=
    string_ends_of_mem_scan hsize (hscan ▸ List.mem_cons_self : closedToken ∈ scan slashedSource) rfl
    String.ofList_toList.symm
  obtain ⟨hiff, -, before, after, hsource, -, -, hend⟩ := string_ends_of_mem_scan hsize
    (hscan ▸ List.mem_cons_of_mem _ List.mem_cons_self : openToken ∈ scan slashedSource) rfl
      String.ofList_toList.symm
  rw [hend hopen, List.append_nil] at hsource
  exact ⟨hscan, hclosed.mp (by decide +kernel), fun h => absurd (hiff.mpr h) (hopen ▸ Bool.false_ne_true),
    before, hsource⟩

end Token
end Bies
