import Bies.Proofs.AssemblyTexts
import Bies.Proofs.Constants
import Bies.Proofs.NumberTexts

/-!
# Lines of an assembly file

A newline in the text of an instruction comes from a string that the instruction pushes. So the lines of an assembly are
the lines of its file unless a string of the source goes over several lines.
-/

namespace Bies

def newlines (text : List Char) : Nat := text.count '\n'

@[simp] theorem newlines_nil : newlines [] = 0 := rfl

@[simp] theorem newlines_append (text rest : List Char) : newlines (text ++ rest) = newlines text + newlines rest :=
  List.count_append

@[simp] theorem newlines_cons {c : Char} (hc : c ≠ '\n') (text : List Char) : newlines (c :: text) = newlines text :=
  List.count_cons_of_ne hc

theorem newlines_eq_zero {text : List Char} : newlines text = 0 ↔ '\n' ∉ text := List.count_eq_zero

theorem newlines_of_isNumeralPart {text : List Char} (h : ∀ c ∈ text, isNumeralPart c = true) :
    newlines text = 0 := by
  refine newlines_eq_zero.mpr fun hc => absurd (h '\n' hc) ?_
  decide

@[simp] theorem newlines_int (n : Int) : newlines n.repr.toList = 0 :=
  newlines_of_isNumeralPart fun _ => isNumeralPart_of_mem_int

@[simp] theorem newlines_digits (n : Nat) : newlines (Nat.toDigits 10 n) = 0 :=
  newlines_of_isNumeralPart fun _ => isNumeralPart_of_mem_digits

def newlinesAll (texts : List String) : Nat := newlines (texts.flatMap String.toList)

@[simp] theorem newlinesAll_nil : newlinesAll [] = 0 := rfl

@[simp] theorem newlinesAll_cons (text : String) (texts : List String) :
    newlinesAll (text :: texts) = newlines text.toList + newlinesAll texts := by
  rw [newlinesAll, List.flatMap_cons, newlines_append, newlinesAll]

@[simp] theorem newlinesAll_append (texts rest : List String) :
    newlinesAll (texts ++ rest) = newlinesAll texts + newlinesAll rest := by
  rw [newlinesAll, List.flatMap_append, newlines_append, newlinesAll, newlinesAll]

theorem newlinesAll_eq_zero {texts : List String} : newlinesAll texts = 0 ↔ ∀ s ∈ texts, '\n' ∉ s.toList := by
  rw [newlinesAll, newlines_eq_zero]
  simp

/-! ## Newlines of an assembly -/

mutual

theorem Literal.newlines_render : ∀ x : Literal, newlines x.render.toList = newlinesAll x.strings
  | .int n => newlines_int n.toInt
  | .float x => newlines_of_isNumeralPart (isFloatText_renderFloat x).parts
  | .str text => by simp [render, strings]
  | .list items => by
    have hitems := Literal.newlines_renderAll items
    rw [toList_render_list, strings, ← hitems]
    simp

theorem Literal.newlines_renderAll : ∀ items : List Literal,
    newlines (Literal.renderAll items).toList = newlinesAll (Literal.stringsAll items)
  | [] => rfl
  | [x] => by
    have hx := x.newlines_render
    simp [toList_renderAll_cons, moreItems, stringsAll, hx]
  | x :: y :: rest => by
    have hx := x.newlines_render
    have hrest := Literal.newlines_renderAll (y :: rest)
    rw [toList_renderAll_cons, newlines_append, stringsAll, newlinesAll_append, hx, ← hrest]
    simp [moreItems]

end

theorem Instruction.newlines_render (i : Instruction) : newlines i.render.toList = newlinesAll i.strings := by
  have hopcode : newlines i.opcode.toList = 0 :=
    newlines_eq_zero.mpr fun h => absurd (isUpper_of_mem_opcode h) (by decide)
  rw [toList_render, newlines_append, hopcode, Nat.zero_add]
  cases i with
  | ldv x => simp [operand, Operand.text, strings, x.newlines_render]
  | _ => simp [operand, Operand.text, strings]

theorem Code.newlines_lines (code : Code) : newlinesAll (code.map Instruction.render) = newlinesAll code.strings := by
  induction code with
  | nil => rfl
  | cons i code ih =>
    rw [List.map_cons, newlinesAll_cons, strings, List.flatMap_cons, newlinesAll_append, i.newlines_render, ih, strings]

theorem FunctionCode.newlines_lines (f : FunctionCode) : newlinesAll f.lines = newlinesAll f.code.strings := by
  simp [lines, renderFunctionId, toString, f.code.newlines_lines]

theorem Assembly.newlines_lines (a : Assembly) : newlinesAll a.lines = newlinesAll a.strings := by
  unfold lines strings
  induction a.functions with
  | nil => rfl
  | cons f fs ih =>
    rw [List.flatMap_cons, List.flatMap_cons, newlinesAll_append, newlinesAll_append, f.newlines_lines, ih]

/-! ## Splitting -/

theorem length_splitOn (text : List Char) : (text.splitOn '\n').length = newlines text + 1 := by
  induction text with
  | nil => rfl
  | cons c text ih =>
    rw [List.splitOn_cons_eq_if_modifyHead]
    by_cases hc : c = '\n'
    · simp [hc, newlines, ih]
    · simp [hc, ih]

theorem splitOn_fileText (ls : List String) :
    (fileText ls).splitOn '\n' = (ls.flatMap fun l => l.toList.splitOn '\n') ++ [[]] := by
  induction ls with
  | nil => rfl
  | cons l ls ih => rw [fileText_cons, List.splitOn_append_cons_self, ih, List.flatMap_cons, List.append_assoc]

theorem length_pieces (ls : List String) :
    (ls.flatMap fun l => l.toList.splitOn '\n').length = newlinesAll ls + ls.length := by
  induction ls with
  | nil => rfl
  | cons l ls ih =>
    rw [List.flatMap_cons, List.length_append, ih, length_splitOn, newlinesAll_cons, List.length_cons]
    omega

theorem splitOn_fileText_eq_iff {ls : List String} :
    (fileText ls).splitOn '\n' = ls.map String.toList ++ [[]] ↔ ∀ l ∈ ls, '\n' ∉ l.toList := by
  rw [splitOn_fileText, List.append_cancel_right_eq]
  constructor
  · intro h
    have hlength := congrArg List.length h
    rw [length_pieces, List.length_map] at hlength
    exact newlinesAll_eq_zero.mp (by omega)
  · intro h
    rw [List.map_eq_flatMap]
    exact List.flatMap_congr fun l hl => List.splitOn_eq_singleton (h l hl)

theorem Assembly.splitOn_render_eq_iff (a : Assembly) :
    a.render.toList.splitOn '\n' = a.lines.map String.toList ++ [[]] ↔ ∀ s ∈ a.strings, '\n' ∉ s.toList := by
  rw [toList_render, splitOn_fileText_eq_iff, ← newlinesAll_eq_zero, newlines_lines, newlinesAll_eq_zero]

/-- The lines of a compiled program are those of its file if and only if no string that it pushes goes over several
lines, and such a string stands in the source. -/
theorem compile_splitOn_render {options : Options} {source : List Char} {a : Assembly}
    (h : (compile options source).result = .ok a) :
    (a.render.toList.splitOn '\n' = a.lines.map String.toList ++ [[]] ↔ ∀ s ∈ a.strings, '\n' ∉ s.toList) ∧
    (byteLength source < 2 ^ 32 → (∀ t ∈ Token.scan source, t.kind = .string → '\n' ∉ t.text.toList) →
      a.render.toList.splitOn '\n' = a.lines.map String.toList ++ [[]]) := by
  refine ⟨a.splitOn_render_eq_iff, fun hsize hstrings => a.splitOn_render_eq_iff.mpr fun s hs => ?_⟩
  obtain ⟨t, ht, hkind, -, rfl⟩ := compile_strings hsize h s hs
  exact hstrings t ht hkind

def spacedSource : List Char := "// one\nlet xs = [\"a\\nb\", [\"$END\", -2.5]]\nprint(xs[0]) print(\"c\")".toList

theorem compile_splitOn_render_of_spacedSource : ∃ a, (compile {} spacedSource).result = .ok a ∧
    a.strings = ["\"a\\nb\"", "\"$END\"", "\"c\""] ∧
    a.render.toList.splitOn '\n' = a.lines.map String.toList ++ [[]] := by
  obtain ⟨a, ha, hstrings⟩ := exists_of_compile {} spacedSource (p := fun a =>
    a.strings = ["\"a\\nb\"", "\"$END\"", "\"c\""]) (by decide +kernel)
  have htokens : ∀ t ∈ Token.scan spacedSource, t.kind = .string → '\n' ∉ t.text.toList := by decide +kernel
  exact ⟨a, ha, of_decide_eq_true hstrings, (compile_splitOn_render ha).2 (by decide +kernel) htokens⟩

/-- A string over two lines makes two lines of an instruction. -/
theorem not_splitOn_render_of_brokenString : ∃ a, (compile {} "print(\"a\nb\")".toList).result = .ok a ∧
    a.lines = ["$FUN $0 args:0 parent:$0", "LDV \"a\nb\"", "PRN", "HLT", "$END"] ∧
    a.render.toList.splitOn '\n' ≠ a.lines.map String.toList ++ [[]] := by
  obtain ⟨a, ha, hp⟩ := exists_of_compile {} "print(\"a\nb\")".toList (p := fun a =>
    a.lines = ["$FUN $0 args:0 parent:$0", "LDV \"a\nb\"", "PRN", "HLT", "$END"] ∧
    a.render.toList.splitOn '\n' ≠ a.lines.map String.toList ++ [[]]) (by decide +kernel)
  exact ⟨a, ha, of_decide_eq_true hp⟩

end Bies
