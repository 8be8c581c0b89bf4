import Bies.Proofs.Failures
import Bies.Proofs.MainProgram

/-!
# Strings in the code

The strings that code pushes, also those in lists, are strings of the source: no step of loading and lowering makes or
changes one.
-/

namespace Bies

mutual

def Literal.strings : Literal → List String
  | .int _ | .float _ => []
  | .str text => [text]
  | .list items => Literal.stringsAll items

def Literal.stringsAll : List Literal → List String
  | [] => []
  | x :: rest => x.strings ++ Literal.stringsAll rest

end

def Instruction.strings : Instruction → List String
  | .ldv x => x.strings
  | _ => []

def Code.strings (code : Code) : List String := code.flatMap Instruction.strings

def Assembly.strings (a : Assembly) : List String := a.functions.flatMap fun f => f.code.strings

/-! ## Code made of parts -/

namespace Code

def StringsWithin (b : Bounds) (code : Code) : Prop := ∀ s ∈ code.strings, b.string s

variable {b : Bounds} {code code' : Code} {i : Instruction}

theorem stringsWithin_nil : StringsWithin b [] := fun _ h => absurd h List.not_mem_nil

theorem StringsWithin.append (h : StringsWithin b code) (h' : StringsWithin b code') :
    StringsWithin b (code ++ code') := by
  rw [StringsWithin, strings, List.flatMap_append]
  exact List.forall_mem_append.mpr ⟨h, h'⟩

theorem StringsWithin.plain (hi : i.strings = []) (h : StringsWithin b code) : StringsWithin b (i :: code) := by
  rw [StringsWithin, strings, List.flatMap_cons, hi]
  exact h

theorem stringsWithin_constant {x : Literal} (h : ∀ s ∈ x.strings, b.string s) : StringsWithin b [.ldv x] := by
  rw [StringsWithin, strings, List.flatMap_singleton]
  exact h

end Code

/-! ## Lowering -/

namespace Lowering

open Code

variable {b : Bounds} {c : Context}

mutual

theorem literal_strings :
    ∀ {n : Node} {x : Literal}, n.ValueWithin b → literal n = .ok x → ∀ s ∈ x.strings, b.string s
  | .int .., _, _, h | .float .., _, _, h => by
    cases h
    exact fun _ h => absurd h List.not_mem_nil
  | .str .., _, hn, h => by
    cases h
    exact List.forall_mem_singleton.mpr hn
  | .list _ items, _, hn, h => by
    rw [literal] at h
    cases hitems : literals items with
    | ok xs =>
      rw [hitems] at h
      cases h
      exact literals_strings hn hitems
    | error e =>
      rw [hitems] at h
      cases h

theorem literals_strings : ∀ {nodes : List Node} {xs : List Literal}, Node.ItemsWithin b nodes →
    literals nodes = .ok xs → ∀ s ∈ Literal.stringsAll xs, b.string s
  | [], _, _, h => by
    cases h
    exact fun _ h => absurd h List.not_mem_nil
  | n :: rest, _, hn, h => by
    obtain ⟨x, hx⟩ := literal_of_valueWithin hn.1 hn.2.1
    obtain ⟨xs, hxs⟩ := literals_of_itemsWithin hn.2.2
    rw [literals, hx, hxs] at h
    cases h
    exact List.forall_mem_append.mpr ⟨literal_strings hn.2.1 hx, literals_strings hn.2.2 hxs⟩

end

theorem strings_of_isLoad {i : Instruction} (h : i.isLoad = true) : i.strings = [] := by
  cases i <;> first | rfl | cases h

theorem strings_of_isOperation {i : Instruction} (h : i.isOperation = true) : i.strings = [] := by
  cases i <;> first | rfl | cases h

theorem strings_finishCall (tag : Tag) (name : String) (args : List Node) :
    Gives (finishCall c tag name args) (StringsWithin b) := by
  unfold finishCall
  refine .bind_any fun s => ?_
  split
  · split
    · exact .ret (.plain rfl stringsWithin_nil)
    · refine .bind_any fun slot => .ret (.append ?_ ?_)
      · split
        · exact stringsWithin_nil
        · exact .plain rfl stringsWithin_nil
      · exact .plain rfl (.plain rfl (.plain rfl stringsWithin_nil))
  · refine .bind (loadName_isLoad c name tag.span) fun i hi => ?_
    have hcall : StringsWithin b [i, .app args.length] := .plain (strings_of_isLoad hi) (.plain rfl stringsWithin_nil)
    split
    · exact .bind_any fun _ => .ret hcall
    · exact .ret hcall

mutual

theorem strings_lowerValue : ∀ {n : Node}, n.ValueWithin b → Gives (lowerValue c n) (StringsWithin b)
  | .ident tag name, _ => by
    unfold lowerValue
    exact .bind_any fun _ => .bind (loadName_isLoad c name tag.span) fun i hi =>
      .ret (.plain (strings_of_isLoad hi) stringsWithin_nil)
  | .binary tag left op right, h => by
    unfold lowerValue
    exact .bind_any fun _ => .bind (arithmeticInstruction_isOperation c tag left op right) fun i hi =>
      .bind (strings_lowerValue h.2.2) fun x hx => .bind (strings_lowerValue h.2.1) fun y hy =>
        .ret ((hx.append hy).append (.plain (strings_of_isOperation hi) stringsWithin_nil))
  | .comparison .., h => by
    unfold lowerValue
    refine .bind_any fun _ => ?_
    split
    · exact .fail _
    next i hi =>
      exact .bind (strings_lowerValue h.2.2) fun x hx => .bind (strings_lowerValue h.2.1) fun y hy =>
        .ret ((hx.append hy).append (.plain (strings_of_isOperation (comparison?_isOperation hi)) stringsWithin_nil))
  | .call tag name args, h => by
    unfold lowerValue
    exact .bind_any fun _ => .bind (strings_lowerValues h) fun x hx =>
      .bind (strings_finishCall tag name args) fun y hy => .ret (hx.append hy)
  | .access tag name _, h => by
    unfold lowerValue
    exact .bind_any fun _ => .bind (strings_lowerValue h) fun x hx =>
      .bind (loadName_isLoad c name tag.span) fun i hi =>
        .ret (hx.append (.plain (strings_of_isLoad hi) (.plain rfl stringsWithin_nil)))
  | .lambda .., _ => by
    unfold lowerValue
    exact .bind_any fun _ => .ret (.plain rfl stringsWithin_nil)
  | .int .., h | .float .., h | .str .., h | .list .., h => by
    obtain ⟨x, hx⟩ := literal_of_valueWithin rfl h
    unfold lowerValue
    refine .bind_any fun _ => ?_
    rw [hx]
    exact .ret (stringsWithin_constant (literal_strings h hx))

theorem strings_lowerValues : ∀ {nodes : List Node}, Node.ValuesWithin b nodes →
    Gives (lowerValues c nodes) (StringsWithin b)
  | [], _ => by
    unfold lowerValues
    exact .ret stringsWithin_nil
  | _ :: _, h => by
    unfold lowerValues
    exact .bind (strings_lowerValue h.1) fun x hx => .bind (strings_lowerValues h.2) fun y hy => .ret (hx.append hy)

end

inductive Chain.StringsWithin (b : Bounds) : Chain → Prop
  | done : StringsWithin b .done
  | otherwise {code : Code} : code.StringsWithin b → StringsWithin b (.otherwise code)
  | branch {test body : Code} {rest : Chain} : test.StringsWithin b → body.StringsWithin b → StringsWithin b rest →
    StringsWithin b (.branch test body rest)

theorem strings_finishChain {chain : Chain} (h : chain.StringsWithin b) :
    Gives (finishChain chain) (Code.StringsWithin b) := by
  unfold finishChain
  rw [Chain.code_eq_layout]
  refine .ret ?_
  induction h with
  | done => exact stringsWithin_nil
  | otherwise h => exact h
  | @branch test body rest htest hbody _ ih =>
    have hleave : Code.StringsWithin b (Chain.leave body rest rest.layout.length) := by
      unfold Chain.leave
      split
      · exact stringsWithin_nil
      · exact .plain rfl stringsWithin_nil
    exact htest.append (.plain rfl ((hbody.append hleave).append ih))

theorem strings_skip (n : Node) : Gives (skip c n) (Code.StringsWithin b) := by
  unfold skip
  exact .bind_any fun _ => .bind_any fun _ => .ret stringsWithin_nil

mutual

theorem strings_lowerStmt : ∀ {n : Node}, n.Within b → Gives (lowerStmt c n) (Code.StringsWithin b)
  | .decl .., h => by
    unfold lowerStmt
    exact once_gives stringsWithin_nil (.bind (strings_lowerValue h) fun x hx => .bind_any fun _ =>
      .ret (hx.append (.plain rfl stringsWithin_nil)))
  | .letIn .., h => by
    unfold lowerStmt
    exact once_gives stringsWithin_nil (.bind (strings_lowerStmts h.1) fun x hx =>
      .bind (strings_lowerStmt h.2) fun y hy => .ret (hx.append hy))
  | .block .., h => by
    unfold lowerStmt
    exact once_gives stringsWithin_nil (strings_lowerStmts h)
  | .ifThen .., h => by
    unfold lowerStmt
    exact once_gives stringsWithin_nil (.bind (strings_lowerValue h.1) fun t ht =>
      .bind (strings_lowerStmt h.2) fun x hx => strings_finishChain (.branch ht hx .done))
  | .ifElse .., h => by
    unfold lowerStmt
    exact once_gives stringsWithin_nil (.bind (strings_lowerValue h.1) fun t ht =>
      .bind (strings_lowerStmt h.2.1) fun x hx => .bind (strings_lowerStmt h.2.2) fun y hy =>
        strings_finishChain (.branch ht hx (.otherwise hy)))
  | .ifElseIf .., h => by
    unfold lowerStmt
    exact once_gives stringsWithin_nil (.bind (strings_lowerValue h.1) fun t ht =>
      .bind (strings_lowerStmt h.2.1) fun x hx => .bind (strings_lowerLink h.2.2.1 h.2.2.2) fun r hr =>
        strings_finishChain (.branch ht hx hr))
  | .print .., h => by
    unfold lowerStmt
    exact once_gives stringsWithin_nil (.bind (strings_lowerValues h) fun x hx =>
      .ret (hx.append (.plain rfl stringsWithin_nil)))
  | .ret .., h => by
    unfold lowerStmt
    refine once_gives stringsWithin_nil (.bind (strings_lowerValue h) fun x hx => .ret ?_)
    split
    · exact hx
    · exact hx.append (.plain rfl stringsWithin_nil)
  | .call .., h | .binary .., h | .comparison .., h => by
    unfold lowerStmt
    exact once_gives stringsWithin_nil (strings_lowerValue h)
  | .funDecl .., _ => by
    unfold lowerStmt
    exact once_gives stringsWithin_nil (.ret stringsWithin_nil)
  | .int .., _ | .float .., _ | .str .., _ | .ident .., _ | .lambda .., _ | .access .., _ | .list .., _ => by
    unfold lowerStmt
    exact once_gives stringsWithin_nil (strings_skip _)

theorem strings_lowerStmts : ∀ {nodes : List Node}, Node.AllWithin b nodes →
    Gives (lowerStmts c nodes) (Code.StringsWithin b)
  | [], _ => by
    unfold lowerStmts
    exact .ret stringsWithin_nil
  | _ :: _, h => by
    unfold lowerStmts
    exact .bind (strings_lowerStmt h.1) fun x hx => .bind (strings_lowerStmts h.2) fun y hy => .ret (hx.append hy)

theorem strings_lowerLink : ∀ {n : Node}, n.isConditional = true → n.Within b →
    Gives (lowerLink c n) (Chain.StringsWithin b)
  | .ifThen .., _, h => by
    unfold lowerLink
    exact .bind_any fun _ => .bind (strings_lowerValue h.1) fun t ht => .bind (strings_lowerStmt h.2) fun x hx =>
      .ret (.branch ht hx .done)
  | .ifElse .., _, h => by
    unfold lowerLink
    exact .bind_any fun _ => .bind (strings_lowerValue h.1) fun t ht => .bind (strings_lowerStmt h.2.1) fun x hx =>
      .bind (strings_lowerStmt h.2.2) fun y hy => .ret (.branch ht hx (.otherwise hy))
  | .ifElseIf .., _, h => by
    unfold lowerLink
    exact .bind_any fun _ => .bind (strings_lowerValue h.1) fun t ht => .bind (strings_lowerStmt h.2.1) fun x hx =>
      .bind (strings_lowerLink h.2.2.1 h.2.2.2) fun r hr => .ret (.branch ht hx hr)

end

theorem strings_lowerSequence (later : List Node) : ∀ {nodes : List Node}, (∀ n ∈ nodes, n.Within b) →
    Gives (lowerSequence c later nodes) (Code.StringsWithin b)
  | [], _ => by
    unfold lowerSequence
    exact .ret stringsWithin_nil
  | n :: rest, h => by
    obtain ⟨hn, hrest⟩ := List.forall_mem_cons.mp h
    have ih := strings_lowerSequence later hrest
    unfold lowerSequence
    refine .bind_any fun s => ?_
    split
    · exact ih
    · split
      · exact .bind_any fun _ => ih
      · exact .bind (strings_lowerStmt hn) fun x hx => .bind ih fun y hy => .ret (hx.append hy)

theorem strings_lowerFunctions {table : FunctionTable} {options : Options} : ∀ {records : List FunctionRecord},
    (∀ r ∈ records, ∀ n ∈ r.sequence, n.Within b) →
      Gives (lowerFunctions table options records) fun fs => ∀ f ∈ fs, f.code.StringsWithin b
  | [], _ => by
    unfold lowerFunctions
    exact .ret fun _ h => absurd h List.not_mem_nil
  | r :: rest, h => by
    obtain ⟨hr, hrest⟩ := List.forall_mem_cons.mp h
    have hfunction : Gives (lowerFunction table options (rest.flatMap (·.sequence)) r) fun f =>
        f.code.StringsWithin b := by
      unfold lowerFunction
      refine .bind_any fun _ => .bind (strings_lowerSequence _ hr) fun x hx => .ret ?_
      dsimp only
      split
      · exact hx.append (.plain rfl stringsWithin_nil)
      · exact hx
    unfold lowerFunctions
    exact .bind hfunction fun f hf => .bind (strings_lowerFunctions hrest) fun fs hfs =>
      .ret (List.forall_mem_cons.mpr ⟨hf, hfs⟩)

theorem strings_lower {table : FunctionTable} (options : Options)
    (h : ∀ r ∈ table.records, ∀ n ∈ r.sequence, n.Within b) :
    Gives (lower table options) fun a => ∀ f ∈ a.functions, f.code.StringsWithin b := by
  unfold lower
  exact .bind (strings_lowerFunctions h) fun fs hfs => .bind_any fun _ => .ret hfs

end Lowering

/-! ## Compiling -/

theorem exists_of_compile (options : Options) (source : List Char) {p : Assembly → Bool}
    (h : (compile options source).result.toOption.any p = true) :
    ∃ a, (compile options source).result = .ok a ∧ p a = true := by
  cases hresult : (compile options source).result with
  | error e =>
    rw [hresult] at h
    cases h
  | ok a => exact ⟨a, rfl, by rwa [hresult] at h⟩

def Bounds.ofSource (source : List Char) : Bounds where
  string s := ∃ t ∈ Token.scan source,
    t.kind = .string ∧ Parser.isTerminatedString t.text.toList = true ∧ t.text = s

theorem Program.within_ofSource {source : List Char} {tree : Tree} (h : Tree.parse source = .ok tree)
    (hsize : byteLength source < 2 ^ 32) : Stmt.AllWithin (.ofSource source) (ofTree source tree) := by
  refine within_of_parse h trivial trivial ?_ ?_
  · exact fun t _ => ⟨fun _ => trivial, fun _ _ _ => trivial, fun _ _ _ => trivial⟩
  · exact fun t ht hkind hclosed => ⟨t, ht, hkind, hclosed, (Token.text_of_mem_scan hsize ht).symm⟩

theorem compile_strings {options : Options} {source : List Char} {a : Assembly} (hsize : byteLength source < 2 ^ 32)
    (h : (compile options source).result = .ok a) : ∀ s ∈ a.strings, (Bounds.ofSource source).string s := by
  obtain ⟨tree, table, hparse, htable, ha⟩ := compile_eq_ok h
  have hsound := FunctionTable.sound_of_ofProgram (Program.within_ofSource hparse hsize) htable
  have hrecords : ∀ r ∈ table.records, ∀ n ∈ r.sequence, n.Within (.ofSource source) := by
    intro r hr n hn
    obtain ⟨f, hf⟩ := List.getElem?_of_mem hr
    exact hsound.entries ⟨r, hf, hn⟩
  obtain ⟨last, hrun⟩ := Outcome.ofRun_eq_ok ha
  have hcodes := Lowering.strings_lower options hrecords _ _ _ hrun
  intro s hs
  obtain ⟨f, hf, hs⟩ := List.mem_flatMap.mp hs
  exact hcodes f hf s hs

end Bies
