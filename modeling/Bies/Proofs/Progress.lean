import Bies.Proofs.ParsingSimulation

/-!
# Progress of the parsers

A parser that reads a phrase takes at least one token off the front, and an error lies at the tokens or at the
end. The budget bounds how deep the calls are nested. Ten units for each token and ten more are never spent: the
result is the same with any larger budget, whatever error a spent budget is reported by.
-/

namespace Bies

/-- The span starts where a token or the end starts, and stops where a token or the end stops. -/
structure Span.Among (s : Span) (tokens : List Token) (stop : Span) : Prop where
  start : s.start = stop.start ∨ ∃ t ∈ tokens, s.start = t.span.start
  stop : s.stop = stop.stop ∨ ∃ t ∈ tokens, s.stop = t.span.stop

theorem Span.Among.join {s t stop : Span} {tokens : List Token} (hs : s.Among tokens stop) (ht : t.Among tokens stop) :
    (s.join t).Among tokens stop := by
  unfold Span.join
  split
  · exact hs
  split
  · exact ht
  · constructor
    · show min s.start t.start = _ ∨ _
      rcases Std.min_eq_or (a := s.start) (b := t.start) with h | h <;> rw [h]
      · exact hs.start
      · exact ht.start
    · have hmax : max s.stop t.stop = t.stop ∨ max s.stop t.stop = s.stop := ite_eq_or_eq _ _ _
      show max s.stop t.stop = stop.stop ∨ ∃ u ∈ tokens, max s.stop t.stop = u.span.stop
      rcases hmax with h | h <;> rw [h]
      · exact ht.stop
      · exact hs.stop

namespace Parser

def Simulation.same (tokens : List Token) {stop stop' : Finish} (h : stop.span = stop'.span) :
    Simulation stop stop' where
  tokens t t' := t = t' ∧ t ∈ tokens
  trees _ _ := True
  spans s s' := s = s' ∧ s.Among tokens stop.span
  numbers _ _ _ _ := False
  kind_eq h := by rw [h.1]
  text_eq h := by rw [h.1]
  span h := ⟨by rw [h.1], .inr ⟨_, h.2, rfl⟩, .inr ⟨_, h.2, rfl⟩⟩
  ends := ⟨h, .inl rfl, .inl rfl⟩
  join h h' := ⟨by rw [h.1, h'.1], h.2.join h'.2⟩
  leaf _ _ := trivial
  node _ _ := trivial
  begins := @Simulation.not_begins
  first h := h.elim
  shorter := @Simulation.not_shorter
  expression h := h.elim

theorem Simulation.beside_same {tokens us : List Token} {stop stop' : Finish} (h : stop.span = stop'.span)
    (hus : us ⊆ tokens) : (Simulation.same tokens h).Beside false us us := by
  induction us with
  | nil => exact .nil
  | cons t us ih =>
    obtain ⟨ht, hus⟩ := List.cons_subset.mp hus
    exact .cons ⟨rfl, ht⟩ (fun _ _ _ _ _ => trivial) (ih hus)

/-- What the parser once reads it reads with every large budget, and its runs on the same tokens pair. -/
structure Steady {α : Type} (spare taken : Nat) (x : Finish → Nat → Parser α) : Prop where
  settles : ∀ {stop n s a s'}, (x stop n).Goes s a s' → s' <:+ s ∧ ∀ stop', Settles (x stop') s a s'
  fits : ∀ {stop stop' : Finish} (S : Simulation stop stop') (n : Nat), ∃ R, S.Fits false spare taken n
    (x stop n) (x stop') R

theorem Settles.unique {α : Type} {x : Nat → Parser α} {s r r' : List Token} {a b : α} (h : Settles x s a r)
    (h' : Settles x s b r') : a = b ∧ r = r' := by
  obtain ⟨n, hn, hn'⟩ := (h.and h').exists
  have heq := hn.symm.trans hn'
  cases heq
  exact ⟨rfl, rfl⟩

namespace Steady

variable {α : Type} {spare taken : Nat} {x : Finish → Nat → Parser α} {stop stop' : Finish}
  {tokens : List Token} {n n' : Nat}

theorem loosen {more : Nat} (hx : Steady spare taken x) (h : spare ≤ more := by decide) : Steady more taken x where
  settles := hx.settles
  fits S n := by
    obtain ⟨R, hfits⟩ := hx.fits S n
    exact ⟨R, fun n' m m' hn hn' => hfits n' m m' (by omega) (by omega)⟩

theorem runs (hx : Steady spare taken x) (hspan : stop.span = stop'.span) (hn : 10 * tokens.length + spare ≤ n)
    (hn' : 10 * tokens.length + spare ≤ n') : (x stop' n').run tokens = (x stop n).run tokens ∧
      match (x stop n).run tokens with
      | .ok (_, rest) => ∃ used, tokens = used ++ rest ∧ taken ≤ used.length
      | .error e => e.span.Among tokens stop.span := by
  obtain ⟨R, hfits⟩ := hx.fits (Simulation.same tokens hspan) n
  have hpairs := hfits n' tokens.length tokens.length hn hn' tokens tokens
    ⟨Simulation.beside_same hspan (List.Subset.refl _), Nat.le_refl _, Nat.le_refl _⟩
  unfold Simulation.PairsFrom at hpairs
  cases hrun : (x stop n).run tokens <;> cases hrun' : (x stop' n').run tokens <;> rw [hrun, hrun'] at hpairs
  case ok.ok p q =>
    have hgoes : (x stop n).Goes tokens p.1 p.2 := hrun
    have hgoes' : (x stop' n').Goes tokens q.1 q.2 := hrun'
    obtain ⟨⟨used, hused⟩, hsettles⟩ := hx.settles hgoes
    obtain ⟨ha, hr⟩ := (hsettles stop).unique ((hx.settles hgoes').2 stop)
    refine ⟨congrArg Except.ok (Prod.ext ha hr).symm, used, hused.symm, ?_⟩
    have hleft := hpairs.2.left
    have hlength := congrArg List.length hused
    rw [List.length_append] at hlength
    omega
  case error.error e e' =>
    obtain ⟨hmoved, hspan, hamong⟩ := hpairs
    refine ⟨?_, hamong⟩
    rw [hmoved, ← hspan, ParseError.moved_span]
  all_goals exact hpairs.elim

theorem goes (hx : Steady spare taken x) {a : α} {rest : List Token} (h : Settles (x stop) tokens a rest)
    (hn : 10 * tokens.length + spare ≤ n) : (x stop n).Goes tokens a rest := by
  obtain ⟨m, hm, hgoes⟩ := ((Filter.eventually_ge_atTop (10 * tokens.length + spare)).and h).exists
  exact (hx.runs rfl hm hn).1.trans hgoes

theorem ofPhrase {p : Phrase} {x : Finish → Nat → Parser Tree}
    (htakes : ∀ stop n, Takes (x stop n) fun us t rest => Derives p us [t] rest)
    (hruns : ∀ {stop s t s'}, Obtains stop p s [t] s' → Settles (x stop) s t s')
    (hfits : ∀ {stop stop'} (S : Simulation stop stop') n, S.Fits false spare taken n (x stop n) (x stop') S.trees) :
    Steady spare taken x where
  settles h := by
    obtain ⟨us, rfl, hderives⟩ := htakes _ _ _ _ _ h
    exact ⟨List.suffix_append _ _, fun stop' => hruns (hderives.obtains stop')⟩
  fits S n := ⟨_, hfits S n⟩

end Steady

theorem steady_statement : Steady 8 1 statement where
  settles h := by
    obtain ⟨us, rfl, ⟨hderives, hend⟩ | ⟨vs, c, hderives, hc, rfl⟩⟩ := takes_statement _ _ _ _ _ h
    · exact ⟨List.suffix_append _ _, fun stop' => (hderives.obtains stop').out _ _ (.accept?_none hend)⟩
    · refine ⟨List.suffix_append _ _, fun stop' => ?_⟩
      rw [List.append_assoc]
      exact (hderives.obtains stop').out _ _ (.accept? hc)
  fits S n := ⟨_, S.pairs_statement n⟩

theorem steady_additive : Steady 5 1 additive where
  settles h := by
    obtain ⟨us, rfl, hderives, hend⟩ := takes_additive _ _ _ _ _ h
    exact ⟨List.suffix_append _ _, fun stop' => (hderives.obtains stop').out _ _ (settles_additiveTail hend)⟩
  fits S n := ⟨_, S.pairs_additive n⟩

theorem steady_term : Steady 4 1 term where
  settles h := by
    obtain ⟨us, rfl, hderives, hend⟩ := takes_term _ _ _ _ _ h
    exact ⟨List.suffix_append _ _, fun stop' => (hderives.obtains stop').out _ _ (settles_termTail hend)⟩
  fits S n := ⟨_, S.pairs_term n⟩

theorem steady_expression : Steady 7 1 expression :=
  .ofPhrase takes_expression Single.out fun S n => S.pairs_expression n

theorem steady_program : Steady 9 0 program where
  settles h := by
    obtain ⟨us, rfl, hderives⟩ := takes_program _ _ _ _ _ h
    exact ⟨List.suffix_append _ _, hderives.obtains⟩
  fits S n := ⟨_, S.pairs_program n⟩

def phrases : List (Finish → Nat → Parser Tree) :=
  [statement, block, letIn, expression, lambda, comparison, additive, term, power, unary, primary,
    parameterList, argumentList]

theorem steady_of_mem : ∀ x ∈ phrases, Steady 10 1 x := by
  simp only [phrases, List.forall_mem_cons, List.not_mem_nil, false_imp_iff, implies_true, and_true]
  exact ⟨steady_statement.loosen,
    (Steady.ofPhrase takes_block Single.out Simulation.pairs_block).loosen,
    (Steady.ofPhrase takes_letIn Single.out Simulation.pairs_letIn).loosen,
    steady_expression.loosen,
    (Steady.ofPhrase takes_lambda Single.out Simulation.pairs_lambda).loosen,
    (Steady.ofPhrase takes_comparison Single.out Simulation.pairs_comparison).loosen,
    steady_additive.loosen,
    steady_term.loosen,
    (Steady.ofPhrase takes_power Single.out Simulation.pairs_power).loosen,
    (Steady.ofPhrase takes_unary Single.out Simulation.pairs_unary).loosen,
    (Steady.ofPhrase takes_primary Single.out Simulation.pairs_primary).loosen,
    (Steady.ofPhrase takes_parameterList Single.out Simulation.pairs_parameterList).loosen,
    (Steady.ofPhrase takes_argumentList Single.out Simulation.pairs_argumentList).loosen⟩

/-- The parsers make progress. Each that reads a tree from the tokens at a position ends at a greater position,
at most the number of tokens, and a failing one reports an error at those tokens or at the end. Calls nest no
deeper than ten for each token that is left, and ten more: the result is that with every budget from there on,
whatever error stands for a spent budget. So every source is parsed without spending its budget. -/
theorem progress (tokens : List Token) (position : Nat) (stop : Finish) (spent : ParseError) {n n' : Nat}
    (hn : budget (tokens.drop position) ≤ n) (hn' : budget (tokens.drop position) ≤ n') :
    (∀ parse ∈ phrases,
      (parse ⟨stop.span, spent⟩ n').run (tokens.drop position) = (parse stop n).run (tokens.drop position) ∧
      match (parse stop n).run (tokens.drop position) with
      | .ok (_, rest) => ∃ next, position < next ∧ next ≤ tokens.length ∧ rest = tokens.drop next
      | .error e => e.span.Among (tokens.drop position) stop.span) ∧
    ∀ source m, budget ((Token.scan source).filter (·.kind ≠ .comment)) ≤ m → Tree.parse source = (do
      let (statements, _) ← program ⟨(Finish.ofSource source).span, spent⟩ m
        ((Token.scan source).filter (·.kind ≠ .comment))
      return .node .program (.ofOffsets 0 (byteLength source)) statements) := by
  have hspent : ∀ stop : Finish, stop.span = (⟨stop.span, spent⟩ : Finish).span := fun _ => rfl
  refine ⟨fun parse hparse => ?_, fun source m hm => ?_⟩
  · obtain ⟨heq, hends⟩ := (steady_of_mem parse hparse).runs (hspent stop) hn hn'
    refine ⟨heq, ?_⟩
    cases hrun : (parse stop n).run (tokens.drop position) with
    | error e =>
      rw [hrun] at hends
      exact hends
    | ok p =>
      rw [hrun] at hends
      obtain ⟨used, hused, htaken⟩ := hends
      have hlength := congrArg List.length hused
      rw [List.length_append, List.length_drop] at hlength
      refine ⟨position + used.length, by omega, by omega, ?_⟩
      rw [← List.drop_drop, hused, List.drop_left]
  · unfold Tree.parse
    dsimp only
    generalize (Token.scan source).filter (·.kind ≠ .comment) = tokens at hm ⊢
    have hrun : (program ⟨(Finish.ofSource source).span, spent⟩ m).run tokens =
        (program (.ofSource source) (budget tokens)).run tokens :=
      (steady_program.runs (hspent _) (by unfold budget; omega) (by unfold budget at hm; omega)).1
    unfold StateT.run at hrun
    rw [hrun]

def groupedTokens : List Token :=
  [⟨.punct, .ofOffsets 0 1, "("⟩, ⟨.number, .ofOffsets 2 3, "1"⟩, ⟨.punct, .ofOffsets 4 5, ")"⟩]

theorem progress_groupedTokens : budget (groupedTokens.drop 1) ≤ 30 ∧
    (primary (.ofSource []) 30).run (groupedTokens.drop 1) = .ok (.leaf .integer (.ofOffsets 2 3),
      groupedTokens.drop 2) ∧
    ∀ spent, (primary ⟨(Finish.ofSource []).span, spent⟩ 45).run (groupedTokens.drop 1) =
      .ok (.leaf .integer (.ofOffsets 2 3), groupedTokens.drop 2) := by
  refine ⟨by decide, by rfl, fun spent => ?_⟩
  exact ((progress groupedTokens 1 (.ofSource []) spent (n := 30) (by decide) (by decide)).1 primary
    (by simp [phrases])).1

end Parser

theorem Derives.goes {us rest : List Token} {t : Tree} {stop : Parser.Finish} {n : Nat}
    (h : Derives .expression us [t] rest) (hn : 10 * (us ++ rest).length + 7 ≤ n) :
    (Parser.expression stop n).Goes (us ++ rest) t rest :=
  Parser.steady_expression.goes (h.obtains stop).out hn

/-- A source whose tokens derive a sequence of statements is parsed to them. -/
theorem Tree.parse_of_derives {source : List Char} {ts : List Tree}
    (h : Derives (.sequence .statement false) ((Token.scan source).filter (·.kind ≠ .comment)) ts []) :
    Tree.parse source = .ok (.node .program (.ofOffsets 0 (byteLength source)) ts) := by
  unfold Tree.parse
  dsimp only
  generalize (Token.scan source).filter (·.kind ≠ .comment) = tokens at h ⊢
  have hsettles : Parser.Settles (Parser.program (.ofSource source)) (tokens ++ []) ts [] := h.obtains _
  rw [List.append_nil] at hsettles
  have hrun : Parser.program (.ofSource source) (Parser.budget tokens) tokens = .ok (ts, []) :=
    Parser.steady_program.goes hsettles (by unfold Parser.budget; omega)
  rw [hrun]
  rfl

end Bies
