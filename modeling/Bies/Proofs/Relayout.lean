import Bies.Proofs.TokenSpans

/-!
# Tokens that are read again

A token ends where it does whatever is cut off behind it, and it ends there before a line break too, unless it is a
string that is never closed. So the tokens of a source do not depend on what separates them: written each on a line
of its own they scan to the same kinds and texts. And a part of a source, from the start of one of its tokens to the
end of another, has just the tokens that stand there.
-/

namespace Bies

/-- With `tail` in the place of `rest` behind it, a token ends where it did. -/
def Resumes (rest tail : List Char) : Prop := tail <+: rest ∨ rest ≠ [] ∧ ∃ more, tail = '\n' :: more

theorem Resumes.eq_nil {rest tail : List Char} (h : Resumes rest tail) (hrest : rest = []) : tail = [] := by
  rcases h with h | ⟨hne, -⟩
  · exact List.prefix_nil.mp (hrest ▸ h)
  · exact absurd hrest hne

theorem Resumes.head? {rest tail : List Char} (h : Resumes rest tail) :
    ∀ c ∈ tail.head?, c = '\n' ∨ rest.head? = some c := by
  intro c hc
  rcases h with ⟨more, rfl⟩ | ⟨-, more, rfl⟩
  · exact .inr (by rw [List.head?_append, hc, Option.some_or])
  · exact .inl (Option.some.inj hc).symm

/-! ## Each kind of token -/

theorem splitString_again {tail : List Char} : ∀ {escaped : Bool} {cs : List Char},
    ((splitString escaped cs).2 = [] → tail = []) →
      splitString escaped ((splitString escaped cs).1 ++ tail) = ((splitString escaped cs).1, tail)
  | _, [], h => by
    rw [h rfl]
    rfl
  | escaped, c :: cs, h => by
    simp only [splitString] at h ⊢
    split
    next hquote => simp [splitString, hquote]
    next hquote =>
      rw [if_neg hquote] at h
      simp [splitString, hquote, splitString_again h]

theorem Resumes.stops {p : Char → Bool} {cs tail : List Char} (h : Resumes (cs.dropWhile p) tail)
    (hp : p '\n' = false) : ∀ c ∈ tail.head?, p c = false := by
  intro c hc
  rcases h.head? c hc with rfl | hrest
  · exact hp
  · have := List.head?_dropWhile_not p cs
    rw [hrest] at this
    simpa using this

theorem takeWhile_again {p : Char → Bool} {cs tail : List Char} (h : Resumes (cs.dropWhile p) tail)
    (hp : p '\n' = false) :
    (cs.takeWhile p ++ tail).takeWhile p = cs.takeWhile p ∧ (cs.takeWhile p ++ tail).dropWhile p = tail :=
  Outline.takeWhile_stop List.all_takeWhile (h.stops hp)

theorem splitNumber_whole {cs tail : List Char} (h : Resumes (cs.dropWhile Char.isDigit) tail)
    (hpoint : ∀ d rest, cs.dropWhile Char.isDigit = '.' :: d :: rest → d.isDigit = false) :
    splitNumber (cs.takeWhile Char.isDigit ++ tail) = (cs.takeWhile Char.isDigit, tail) := by
  obtain ⟨htake, hdrop⟩ := takeWhile_again h rfl
  rw [splitNumber, htake, hdrop]
  rcases h with ⟨more, hmore⟩ | ⟨-, more, rfl⟩
  · split
    next d rest => rw [if_neg (by simp [hpoint d (rest ++ more) hmore.symm])]
    next => rfl
  · rfl

theorem splitNumber_again {cs tail : List Char} (h : Resumes (splitNumber cs).2 tail) :
    splitNumber ((splitNumber cs).1 ++ tail) = ((splitNumber cs).1, tail) := by
  have hdigits : ∀ text : List Char, (text.takeWhile Char.isDigit).all Char.isDigit = true :=
    fun _ => List.all_takeWhile
  simp only [splitNumber] at h ⊢
  split at h
  next d rest hdrop =>
    split at h
    next hd =>
      rw [if_pos hd, List.append_assoc, List.cons_append, List.cons_append]
      exact Outline.splitNumber_point (hdigits cs) hd (hdigits rest) (h.stops rfl)
    next hd =>
      rw [if_neg hd]
      refine splitNumber_whole (hdrop ▸ h) fun d' rest' heq => ?_
      rw [hdrop] at heq
      cases heq
      simpa using hd
  next hdrop => exact splitNumber_whole h fun d rest heq => absurd heq (hdrop d rest)

namespace Lexeme

variable {c : Char} {cs tail : List Char}

theorem split_string : split '"' cs = ⟨.string, '"' :: (splitString false cs).1, (splitString false cs).2⟩ := rfl

theorem split_comment (h : cs.head? = some '/') :
    split '/' cs = ⟨.comment, '/' :: cs.takeWhile (· ≠ '\n'), cs.dropWhile (· ≠ '\n')⟩ := by
  simp [split, h]

theorem split_number (h : c.isDigit = true) :
    split c cs = ⟨.number, c :: (splitNumber cs).1, (splitNumber cs).2⟩ := by
  have hquote : c ≠ '"' := by rintro rfl; cases h
  have hslash : c ≠ '/' := by rintro rfl; cases h
  simp [split, hquote, hslash, h]

theorem split_word (h : isIdentifierStart c = true) :
    split c cs = ⟨.identifier, c :: cs.takeWhile isIdentifierPart, cs.dropWhile isIdentifierPart⟩ := by
  have hquote : c ≠ '"' := by rintro rfl; revert h; decide +kernel
  have hslash : c ≠ '/' := by rintro rfl; revert h; decide +kernel
  simp [split, hquote, hslash, Outline.isDigit_of_start h, h]

structure IsSign (c : Char) : Prop where
  quote : c ≠ '"'
  digit : c.isDigit = false
  start : isIdentifierStart c = false

theorem split_pair {d : Char} (hc : IsSign c) (h : isPair c d = true) :
    split c (d :: cs) = ⟨.punct, [c, d], cs⟩ := by
  have hslash : c ≠ '/' := by
    rintro rfl
    simp [isPair] at h
  simp [split, hc.quote, hslash, hc.digit, hc.start, h]

theorem split_single (hc : IsSign c) (hslash : c = '/' → cs.head? ≠ some '/')
    (h : ∀ d ∈ cs.head?, isPair c d = false) : split c cs = ⟨.punct, [c], cs⟩ := by
  have hcomment : ¬ (c = '/' ∧ cs.head? = some '/') := fun ⟨hc, hcs⟩ => hslash hc hcs
  cases cs with
  | nil => simp [split, hc.quote, hc.digit, hc.start]
  | cons d cs =>
    have hpair := h d rfl
    simp_all [split, hc.quote, hc.digit, hc.start]

theorem split_cases (c : Char) (cs : List Char) :
    c = '"' ∨ (c = '/' ∧ cs.head? = some '/') ∨ c.isDigit = true ∨ isIdentifierStart c = true ∨
      (IsSign c ∧ ((∃ d rest, cs = d :: rest ∧ isPair c d = true) ∨
        ((c = '/' → cs.head? ≠ some '/') ∧ ∀ d ∈ cs.head?, isPair c d = false))) := by
  by_cases hquote : c = '"'
  · exact .inl hquote
  by_cases hcomment : c = '/' ∧ cs.head? = some '/'
  · exact .inr (.inl hcomment)
  cases hdigit : c.isDigit with
  | true => exact .inr (.inr (.inl rfl))
  | false =>
    cases hstart : isIdentifierStart c with
    | true => exact .inr (.inr (.inr (.inl rfl)))
    | false =>
      refine .inr (.inr (.inr (.inr ⟨⟨hquote, hdigit, hstart⟩, ?_⟩)))
      cases cs with
      | nil => exact .inr ⟨nofun, nofun⟩
      | cons d rest =>
        cases hpair : isPair c d with
        | true => exact .inl ⟨d, rest, rfl, hpair⟩
        | false =>
          refine .inr ⟨fun hc hhead => hcomment ⟨hc, hhead⟩, ?_⟩
          rintro _ ⟨⟩
          exact hpair

theorem split_again {l : Lexeme} (hl : split c cs = l) (htail : Resumes l.rest tail) :
    split c (l.chars.tail ++ tail) = ⟨l.kind, l.chars, tail⟩ := by
  subst hl
  rcases split_cases c cs with rfl | ⟨rfl, hhead⟩ | hdigit | hstart |
    ⟨hsign, ⟨d, rest, rfl, hpair⟩ | ⟨hslash, hpair⟩⟩
  · simp only [split_string, List.tail_cons] at htail ⊢
    rw [splitString_again htail.eq_nil]
  · rw [split_comment hhead] at htail ⊢
    obtain ⟨htake, hdrop⟩ := takeWhile_again htail rfl
    have hagain : (cs.takeWhile (· ≠ '\n') ++ tail).head? = some '/' := by
      rw [List.head?_append, List.head?_takeWhile, hhead]
      rfl
    rw [List.tail_cons, split_comment hagain, htake, hdrop]
  · simp only [split_number hdigit, List.tail_cons] at htail ⊢
    rw [splitNumber_again htail]
  · simp only [split_word hstart, List.tail_cons] at htail ⊢
    obtain ⟨htake, hdrop⟩ := takeWhile_again htail (by decide +kernel)
    rw [htake, hdrop]
  · simp only [split_pair hsign hpair, List.tail_cons, List.singleton_append]
  · rw [split_single hsign hslash hpair] at htail ⊢
    rw [List.tail_cons, List.nil_append, split_single hsign]
    · intro hc hhead
      rcases htail.head? _ hhead with h | h
      · cases h
      · exact hslash hc h
    · intro e he
      rcases htail.head? e he with rfl | h
      · simp [isPair]
      · exact hpair e h

end Lexeme

/-! ## All tokens -/

namespace Token

def onLines (tokens : List Token) : List Char := ['\n'].intercalate (tokens.map (·.text.toList))

theorem onLines_cons (t : Token) {ts : List Token} (h : ts ≠ []) :
    onLines (t :: ts) = t.text.toList ++ '\n' :: onLines ts := by
  rw [onLines, List.map_cons, List.intercalate_cons_of_ne_nil (by simpa using h), List.append_assoc]
  rfl

theorem onLines_singleton (t : Token) : onLines [t] = t.text.toList := List.intercalate_singleton

theorem scanFrom_token {c : Char} {cs : List Char} {l : Lexeme} (hc : isBlank c = false) (hl : Lexeme.split c cs = l)
    (start : Nat) : scanFrom start (c :: cs) =
      ⟨l.kind, .ofOffsets start (start + byteLength l.chars), .ofList l.chars⟩ ::
        scanFrom (start + byteLength l.chars) l.rest := by
  rw [scanFrom, hc, hl]
  rfl

theorem scanFrom_again {c : Char} {cs tail : List Char} {l : Lexeme} (hc : isBlank c = false)
    (hl : Lexeme.split c cs = l) (htail : Resumes l.rest tail) (start : Nat) :
    scanFrom start (l.chars ++ tail) =
      ⟨l.kind, .ofOffsets start (start + byteLength l.chars), .ofList l.chars⟩ ::
        scanFrom (start + byteLength l.chars) tail := by
  obtain ⟨rest, hchars⟩ := List.head?_eq_some_iff.mp (Lexeme.head?_chars c cs)
  have hagain := Lexeme.split_again hl htail
  rw [hl] at hchars
  rw [hchars, List.tail_cons] at hagain
  rw [hchars, List.cons_append, scanFrom_token hc hagain]

/-- The kinds and texts of tokens do not depend on what is between them. -/
theorem scanFrom_onLines (start : Nat) (cs : List Char) : ∀ start',
    (scanFrom start' (onLines (scanFrom start cs))).map (fun t => (t.kind, t.text)) =
      (scanFrom start cs).map fun t => (t.kind, t.text) := by
  induction start, cs using scanFrom.induct with
  | case1 start =>
    intro start'
    have hnil : onLines [] = [] := rfl
    rw [scanFrom, hnil, scanFrom]
  | case2 start c cs hblank ih =>
    rw [scanFrom, if_pos hblank]
    exact ih
  | case3 start c cs hblank lexeme stop ih =>
    intro start'
    have hc : isBlank c = false := Bool.eq_false_iff.mpr hblank
    have hagain := fun tail => @scanFrom_again c cs tail lexeme hc rfl
    rw [scanFrom_token (l := lexeme) hc rfl]
    by_cases hlast : scanFrom stop lexeme.rest = []
    · rw [hlast, onLines_singleton, String.toList_ofList, ← List.append_nil lexeme.chars,
        hagain [] (.inl List.nil_prefix), scanFrom, List.append_nil]
      rfl
    · have hrest : lexeme.rest ≠ [] := by
        intro h
        rw [h, scanFrom] at hlast
        exact hlast rfl
      rw [onLines_cons _ hlast, String.toList_ofList, hagain _ (.inr ⟨hrest, _, rfl⟩), scanFrom,
        if_pos (by decide), List.map_cons, List.map_cons, ih]

theorem Cut.byteLength_onLines {start : Nat} {cs : List Char} {ts : List Token} (h : Cut start cs ts) :
    byteLength (onLines ts) ≤ 2 * byteLength cs := by
  induction h with
  | blanks => exact Nat.zero_le _
  | @token start gap chars rest kind ts hgap hsome hsolid hrest ih =>
    have hchars := byteLength_pos hsome
    rw [byteLength_append, byteLength_append]
    by_cases hts : ts = []
    · rw [hts, onLines_singleton, String.toList_ofList]
      omega
    · rw [onLines_cons _ hts, String.toList_ofList, byteLength_append]
      have hbreak : byteLength ('\n' :: onLines ts) = 1 + byteLength (onLines ts) := rfl
      omega

def relaid (source : List Char) : List Char :=
  ['\n'].intercalate ((scan source).map fun t => (t.span.text source).toList)

/-- A source has the same kinds and texts of tokens when each stands on a line of its own. -/
theorem scan_relaid {source : List Char} (hsize : byteLength source < 2 ^ 31) :
    (scan (relaid source)).map (fun t => (t.kind, t.span.text (relaid source))) =
      (scan source).map fun t => (t.kind, t.span.text source) := by
  have htext : ∀ t ∈ scan source, t.span.text source = t.text := fun t ht => text_of_mem_scan (by omega) ht
  have hlines : relaid source = onLines (scan source) := by
    rw [relaid, onLines]
    exact congrArg _ (List.map_congr_left fun t ht => by rw [htext t ht])
  have hrelaid : byteLength (relaid source) < 2 ^ 32 := by
    have := (cut_scanFrom 0 source).byteLength_onLines
    rw [hlines, scan]
    omega
  calc (scan (relaid source)).map (fun t => (t.kind, t.span.text (relaid source)))
      = (scan (relaid source)).map fun t => (t.kind, t.text) :=
        List.map_congr_left fun t ht => by rw [text_of_mem_scan hrelaid ht]
    _ = (scan source).map fun t => (t.kind, t.text) := by
        rw [hlines]
        exact scanFrom_onLines 0 source 0
    _ = (scan source).map fun t => (t.kind, t.span.text source) :=
        List.map_congr_left fun t ht => by rw [htext t ht]

theorem scan_relaid_of_mixedSource : byteLength mixedSource < 2 ^ 31 ∧
    relaid mixedSource = "let\né\n=\n7\n.\nx\n**\n2.5\n//∑ \n\"a\\\" b".toList ∧
    (scan (relaid mixedSource)).map (fun t => (t.kind, t.span.text (relaid mixedSource))) =
      (scan mixedSource).map fun t => (t.kind, t.span.text mixedSource) :=
  ⟨by decide +kernel, by decide +kernel, scan_relaid (by decide +kernel)⟩

/-! ## Parts of a text -/

theorem scanFrom_from {start : Nat} {cs : List Char} {u : Token} {us : List Token}
    (h : u :: us <:+ (scanFrom start cs).filter (·.kind ≠ .comment)) : ∃ skipped rest, cs = skipped ++ rest ∧
      (scanFrom (start + byteLength skipped) rest).filter (·.kind ≠ .comment) = u :: us ∧
      u.span.start = .ofNat (start + byteLength skipped) := by
  induction start, cs using scanFrom.induct with
  | case1 start =>
    rw [scanFrom] at h
    cases List.suffix_nil.mp h
  | case2 start c cs hblank ih =>
    rw [scanFrom, if_pos hblank] at h
    obtain ⟨skipped, rest, rfl, hscan⟩ := ih h
    rw [Nat.add_assoc] at hscan
    exact ⟨c :: skipped, rest, rfl, hscan⟩
  | case3 start c cs hblank lexeme stop ih =>
    have hfirst := scanFrom_token (l := lexeme) (Bool.eq_false_iff.mpr hblank) rfl start
    by_cases hall : (scanFrom start (c :: cs)).filter (·.kind ≠ .comment) = u :: us ∧ lexeme.kind ≠ .comment
    · refine ⟨[], c :: cs, rfl, hall.1, ?_⟩
      rw [hfirst, List.filter_cons_of_pos (by simpa using hall.2)] at hall
      cases hall.1
      rfl
    · rw [hfirst, List.filter_cons] at h hall
      have hlater : u :: us <:+ (scanFrom stop lexeme.rest).filter (·.kind ≠ .comment) := by
        split at h
        next hkind =>
          rw [if_pos hkind] at hall
          exact (List.suffix_cons_iff.mp h).resolve_left fun heq => hall ⟨heq.symm, by simpa using hkind⟩
        next => exact h
      obtain ⟨skipped, rest, hrest, hscan⟩ := ih hlater
      rw [Nat.add_assoc, ← byteLength_append] at hscan
      refine ⟨lexeme.chars ++ skipped, rest, ?_, hscan⟩
      rw [List.append_assoc, ← hrest, Lexeme.chars_append_rest]

theorem scanFrom_upTo (start : Nat) (cs : List Char) : ∀ us : List Token, us ≠ [] →
    us <+: (scanFrom start cs).filter (·.kind ≠ .comment) → ∃ text rest, cs = text ++ rest ∧
      (scanFrom start text).filter (·.kind ≠ .comment) = us ∧
      us.getLast?.map (·.span.stop) = some (.ofNat (start + byteLength text)) := by
  induction start, cs using scanFrom.induct with
  | case1 start =>
    intro us hne h
    rw [scanFrom] at h
    exact absurd (List.prefix_nil.mp h) hne
  | case2 start c cs hblank ih =>
    intro us hne h
    rw [scanFrom, if_pos hblank] at h
    obtain ⟨text, rest, rfl, hscan, hlast⟩ := ih us hne h
    rw [Nat.add_assoc] at hlast
    exact ⟨c :: text, rest, rfl, by rw [scanFrom, if_pos hblank, hscan], hlast⟩
  | case3 start c cs hblank lexeme stop ih =>
    intro us hne h
    have hc : isBlank c = false := Bool.eq_false_iff.mpr hblank
    have hchars : c :: cs = lexeme.chars ++ lexeme.rest := (Lexeme.chars_append_rest c cs).symm
    rw [scanFrom_token (l := lexeme) hc rfl, List.filter_cons] at h
    -- the token is read again before a part of what follows it
    have hagain {text rest : List Char} (hrest : lexeme.rest = text ++ rest) :
        (scanFrom start (lexeme.chars ++ text)).filter (·.kind ≠ .comment) = _ :=
      (congrArg _ (scanFrom_again (l := lexeme) hc rfl (.inl ⟨rest, hrest.symm⟩) start)).trans List.filter_cons
    split at h
    next hkind =>
      obtain ⟨u, us, rfl⟩ := List.exists_cons_of_ne_nil hne
      obtain ⟨rfl, hus⟩ := List.cons_prefix_cons.mp h
      by_cases hempty : us = []
      · subst hempty
        have hlast := hagain (List.nil_append lexeme.rest).symm
        rw [List.append_nil, if_pos hkind, scanFrom] at hlast
        exact ⟨lexeme.chars, lexeme.rest, hchars, hlast, rfl⟩
      · obtain ⟨text, rest, hrest, hscan, hlast⟩ := ih us hempty hus
        rw [Nat.add_assoc, ← byteLength_append] at hlast
        refine ⟨lexeme.chars ++ text, rest, by rw [hchars, hrest, List.append_assoc], ?_, ?_⟩
        · rw [hagain hrest, if_pos hkind, hscan]
        · rwa [List.getLast?_cons_of_ne_nil hempty]
    next hkind =>
      obtain ⟨text, rest, hrest, hscan, hlast⟩ := ih us hne h
      rw [Nat.add_assoc, ← byteLength_append] at hlast
      refine ⟨lexeme.chars ++ text, rest, by rw [hchars, hrest, List.append_assoc], ?_, hlast⟩
      rw [hagain hrest, if_neg hkind, hscan]

/-- Tokens that stand together are those of the text from the first of them to the last. -/
theorem exists_excerpt {source : List Char} {us : List Token} (hne : us ≠ [])
    (h : us <:+: (scan source).filter (·.kind ≠ .comment)) :
    ∃ before text after, before ++ (text ++ after) = source ∧
      (scanFrom (byteLength before) text).filter (·.kind ≠ .comment) = us ∧
      us.head?.map (·.span.start) = some (.ofNat (byteLength before)) ∧
      us.getLast?.map (·.span.stop) = some (.ofNat (byteLength before + byteLength text)) := by
  obtain ⟨xs, ys, hsplit⟩ := h
  obtain ⟨u, us, rfl⟩ := List.exists_cons_of_ne_nil hne
  have hsuffix : u :: (us ++ ys) <:+ (scanFrom 0 source).filter (·.kind ≠ .comment) :=
    ⟨xs, by rw [← scan, ← hsplit, List.append_assoc]; rfl⟩
  obtain ⟨before, rest, rfl, hscan, hstart⟩ := scanFrom_from hsuffix
  rw [Nat.zero_add] at hscan hstart
  obtain ⟨text, after, rfl, htext, hstop⟩ := scanFrom_upTo _ _ _ hne ⟨ys, hscan.symm⟩
  exact ⟨before, text, after, rfl, htext, congrArg some hstart, hstop⟩

end Token
end Bies
