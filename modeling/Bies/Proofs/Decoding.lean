import Bies.Proofs.AssemblyTexts
import Bies.Proofs.Constants
import Bies.Proofs.FloatTexts
import Bies.Proofs.Printing

/-!
# Reading assembly back

Each part of an assembly file says where it ends, whatever follows. A string is closed by its quote, a list by its
bracket, a number by a character that no number has, and the code of a function by the `$` of its last line. So files
with one text have the same functions.
-/

namespace Bies

/-! ## Constants -/

theorem Number.isNumeralPart_of_mem {n : Number} {c : Char} (h : c ∈ n.render.toList) : isNumeralPart c = true := by
  cases n with
  | int n => exact isNumeralPart_of_mem_int h
  | float x => exact (isFloatText_renderFloat x).parts c h

theorem Number.render_ne_nil (n : Number) : n.render.toList ≠ [] := by
  cases n with
  | int n => exact int_ne_nil n.toInt
  | float x =>
    obtain ⟨c, hc, -⟩ := (isFloatText_renderFloat x).other
    exact List.ne_nil_of_mem hc

theorem Number.int_ne_float {n : Int64} {x : Float} :
    (Number.int n).render.toList ≠ (Number.float x).render.toList := by
  intro h
  obtain ⟨c, hc, hother⟩ := (isFloatText_renderFloat x).other
  have hint : isIntegerPart c = true := isIntegerPart_of_mem_int (n := n.toInt) (h ▸ hc)
  rw [hother] at hint
  cases hint

theorem Number.eq_of_render {m n : Number} (h : m.render.toList = n.render.toList) : m = n := by
  cases m with
  | int m =>
    cases n with
    | int n => rw [Int64.toInt_inj.mp (eq_of_toList_int h)]
    | float y => exact absurd h int_ne_float
  | float x =>
    cases n with
    | int n => exact absurd h.symm int_ne_float
    | float y => rw [renderFloat_injective (String.toList_inj.mp h)]

def EndsNumber (rest : List Char) : Prop := ∀ c ∈ rest.head?, isNumeralPart c = false

theorem EndsNumber.cons {c : Char} (hc : isNumeralPart c = false) (rest : List Char) : EndsNumber (c :: rest) := by
  intro d hd
  cases hd
  exact hc

theorem Number.eq_of_append {m n : Number} {r s : List Char} (hr : EndsNumber r) (hs : EndsNumber s)
    (h : m.render.toList ++ r = n.render.toList ++ s) : m = n ∧ r = s := by
  obtain ⟨hmn, hrs⟩ := eq_of_run_append_eq (fun _ => isNumeralPart_of_mem) (fun _ => isNumeralPart_of_mem) hr hs h
  exact ⟨eq_of_render hmn, hrs⟩

theorem digits_of_append {m n : Nat} {r s : List Char} (hr : EndsNumber r) (hs : EndsNumber s)
    (h : Nat.toDigits 10 m ++ r = Nat.toDigits 10 n ++ s) : m = n ∧ r = s := by
  obtain ⟨hmn, hrs⟩ := eq_of_run_append_eq (fun _ => isNumeralPart_of_mem_digits)
    (fun _ => isNumeralPart_of_mem_digits) hr hs h
  exact ⟨eq_of_digits hmn, hrs⟩

theorem int_of_append {m n : Int} {r s : List Char} (hr : EndsNumber r) (hs : EndsNumber s)
    (h : m.repr.toList ++ r = n.repr.toList ++ s) : m = n ∧ r = s := by
  obtain ⟨hmn, hrs⟩ := eq_of_run_append_eq (fun _ => isNumeralPart_of_mem_int)
    (fun _ => isNumeralPart_of_mem_int) hr hs h
  exact ⟨eq_of_toList_int hmn, hrs⟩

def AllTerminated (strings : List String) : Prop := ∀ s ∈ strings, Parser.isTerminatedString s.toList = true

theorem AllTerminated.exists_toList {text : String} (h : AllTerminated [text]) :
    ∃ cs, text.toList = '"' :: cs ∧ Outline.isQuoted cs = true := by
  have h := h text List.mem_cons_self
  unfold Parser.isTerminatedString at h
  split at h
  next cs hcs => exact ⟨cs, hcs, (Outline.closesAtEnd_eq cs).symm.trans h⟩
  next => cases h

theorem AllTerminated.eq_of_append {text text' : String} {r s : List Char} (ht : AllTerminated [text])
    (ht' : AllTerminated [text']) (h : text.toList ++ r = text'.toList ++ s) : text = text' ∧ r = s := by
  obtain ⟨cs, hcs, hquoted⟩ := ht.exists_toList
  obtain ⟨cs', hcs', hquoted'⟩ := ht'.exists_toList
  rw [hcs, hcs'] at h
  have htail : cs ++ r = cs' ++ s := (List.cons.inj h).2
  have hsplit := Outline.splitString_quoted cs r hquoted
  rw [htail, Outline.splitString_quoted cs' s hquoted'] at hsplit
  obtain ⟨rfl, rfl⟩ := Prod.mk.inj hsplit
  exact ⟨String.toList_inj.mp (hcs.trans hcs'.symm), rfl⟩

namespace Literal

inductive Shape where
  | number
  | string
  | list

def shape : Literal → Shape
  | .int _ | .float _ => .number
  | .str _ => .string
  | .list _ => .list

def Shape.ofHead (c : Char) : Shape := if c = '"' then .string else if c = '[' then .list else .number

theorem Shape.ofHead_numeral {c : Char} (h : isNumeralPart c = true) : ofHead c = .number := by
  have hquote : c ≠ '"' := by
    rintro rfl
    cases h
  have hbracket : c ≠ '[' := by
    rintro rfl
    cases h
  simp [ofHead, hquote, hbracket]

theorem exists_render_number (n : Number) :
    ∃ c cs, n.render.toList = c :: cs ∧ Shape.ofHead c = .number ∧ c ≠ ']' := by
  obtain ⟨c, cs, hcs⟩ := List.exists_cons_of_ne_nil n.render_ne_nil
  have hc : isNumeralPart c = true := Number.isNumeralPart_of_mem (hcs ▸ List.mem_cons_self)
  refine ⟨c, cs, hcs, Shape.ofHead_numeral hc, ?_⟩
  rintro rfl
  cases hc

theorem exists_render {x : Literal} (h : AllTerminated x.strings) :
    ∃ c cs, x.render.toList = c :: cs ∧ Shape.ofHead c = x.shape ∧ c ≠ ']' := by
  cases x with
  | int n => exact exists_render_number (.int n)
  | float x => exact exists_render_number (.float x)
  | str text =>
    obtain ⟨cs, hcs, -⟩ := AllTerminated.exists_toList h
    exact ⟨'"', cs, hcs, rfl, by decide⟩
  | list items => exact ⟨'[', _, toList_render_list items, rfl, by decide⟩

theorem shape_of_append {x y : Literal} {r s : List Char} (hx : AllTerminated x.strings) (hy : AllTerminated y.strings)
    (h : x.render.toList ++ r = y.render.toList ++ s) : x.shape = y.shape := by
  obtain ⟨c, cs, hcs, hc, -⟩ := exists_render hx
  obtain ⟨d, ds, hds, hd, -⟩ := exists_render hy
  rw [hcs, hds] at h
  rw [← hc, ← hd, (List.cons.inj h).1]

theorem items_ne_closing {x : Literal} {items : List Literal} {r s : List Char} (hx : AllTerminated x.strings) :
    (renderAll (x :: items)).toList ++ r ≠ ']' :: s := by
  obtain ⟨c, cs, hcs, -, hc⟩ := exists_render hx
  rw [toList_renderAll_cons, hcs]
  exact fun h => hc (List.cons.inj h).1

theorem items_of_moreItems {xs ys : List Literal} {r s : List Char}
    (h : moreItems xs ++ ']' :: r = moreItems ys ++ ']' :: s) :
    (renderAll xs).toList ++ ']' :: r = (renderAll ys).toList ++ ']' :: s := by
  cases xs with
  | nil =>
    cases ys with
    | nil => exact h
    | cons y ys => cases (List.cons.inj h).1
  | cons x xs =>
    cases ys with
    | nil => cases (List.cons.inj h).1
    | cons y ys => simpa [moreItems] using h

theorem endsNumber_moreItems (items : List Literal) (r : List Char) : EndsNumber (moreItems items ++ ']' :: r) := by
  cases items <;> simp [EndsNumber, moreItems] <;> decide

mutual

theorem eq_of_append : ∀ {x y : Literal} {r s : List Char}, AllTerminated x.strings → AllTerminated y.strings →
    EndsNumber r → EndsNumber s → x.render.toList ++ r = y.render.toList ++ s → x = y ∧ r = s
  | .int m, .int n, _, _, _, _, hr, hs, h => by
    obtain ⟨hn, hrs⟩ := @Number.eq_of_append (.int m) (.int n) _ _ hr hs h
    cases hn
    exact ⟨rfl, hrs⟩
  | .int m, .float y, _, _, _, _, hr, hs, h => by
    cases (@Number.eq_of_append (.int m) (.float y) _ _ hr hs h).1
  | .float x, .int n, _, _, _, _, hr, hs, h => by
    cases (@Number.eq_of_append (.float x) (.int n) _ _ hr hs h).1
  | .float x, .float y, _, _, _, _, hr, hs, h => by
    obtain ⟨hn, hrs⟩ := @Number.eq_of_append (.float x) (.float y) _ _ hr hs h
    cases hn
    exact ⟨rfl, hrs⟩
  | .str text, .str text', _, _, hx, hy, _, _, h => by
    obtain ⟨rfl, hrs⟩ := AllTerminated.eq_of_append hx hy h
    exact ⟨rfl, hrs⟩
  | .list items, .list items', r, s, hx, hy, _, _, h => by
    rw [toList_render_list, toList_render_list] at h
    have hitems : (renderAll items).toList ++ ']' :: r = (renderAll items').toList ++ ']' :: s := by simpa using h
    obtain ⟨rfl, hrs⟩ := eq_of_items hx hy hitems
    exact ⟨rfl, hrs⟩
  | .int _, .str _, _, _, hx, hy, _, _, h | .int _, .list _, _, _, hx, hy, _, _, h
  | .float _, .str _, _, _, hx, hy, _, _, h | .float _, .list _, _, _, hx, hy, _, _, h
  | .str _, .int _, _, _, hx, hy, _, _, h | .str _, .float _, _, _, hx, hy, _, _, h
  | .str _, .list _, _, _, hx, hy, _, _, h | .list _, .int _, _, _, hx, hy, _, _, h
  | .list _, .float _, _, _, hx, hy, _, _, h | .list _, .str _, _, _, hx, hy, _, _, h => by
    cases shape_of_append hx hy h

theorem eq_of_items :
    ∀ {xs ys : List Literal} {r s : List Char}, AllTerminated (stringsAll xs) →
    AllTerminated (stringsAll ys) → (renderAll xs).toList ++ ']' :: r = (renderAll ys).toList ++ ']' :: s →
    xs = ys ∧ r = s
  | [], [], _, _, _, _, h => ⟨rfl, by simpa [renderAll] using h⟩
  | [], _ :: _, _, _, _, hy, h => absurd h.symm (items_ne_closing (List.forall_mem_append.mp hy).1)
  | _ :: _, [], _, _, hx, _, h => absurd h (items_ne_closing (List.forall_mem_append.mp hx).1)
  | x :: xs, y :: ys, r, s, hx, hy, h => by
    obtain ⟨hfirst, hmore⟩ := List.forall_mem_append.mp hx
    obtain ⟨hfirst', hmore'⟩ := List.forall_mem_append.mp hy
    rw [toList_renderAll_cons, toList_renderAll_cons, List.append_assoc, List.append_assoc] at h
    obtain ⟨rfl, hrest⟩ := eq_of_append hfirst hfirst' (endsNumber_moreItems xs r) (endsNumber_moreItems ys s) h
    obtain ⟨rfl, hrs⟩ := eq_of_items hmore hmore' (items_of_moreItems hrest)
    exact ⟨rfl, hrs⟩

end

end Literal

/-! ## Instructions -/

namespace Operand

inductive Kind where
  | none
  | literal
  | function
  | address
  | offset
  | args

def kind : Operand → Kind
  | .none => .none
  | .literal _ => .literal
  | .function _ => .function
  | .address .. => .address
  | .offset _ => .offset
  | .args _ => .args

def strings : Operand → List String
  | .literal x => x.strings
  | _ => []

theorem eq_of_append {o p : Operand} {r s : List Char} (hkind : o.kind = p.kind) (ho : AllTerminated o.strings)
    (hp : AllTerminated p.strings) (h : o.text ++ '\n' :: r = p.text ++ '\n' :: s) : o = p ∧ r = s := by
  have hend : ∀ t, EndsNumber ('\n' :: t) := .cons rfl
  cases o with
  | none =>
    cases p with
    | none => exact ⟨rfl, (List.cons.inj h).2⟩
    | _ => cases hkind
  | literal x =>
    cases p with
    | literal y =>
      obtain ⟨rfl, hrs⟩ := Literal.eq_of_append ho hp (hend r) (hend s) (List.cons.inj h).2
      exact ⟨rfl, (List.cons.inj hrs).2⟩
    | _ => cases hkind
  | function f =>
    cases p with
    | function g =>
      obtain ⟨rfl, hrs⟩ := digits_of_append (hend r) (hend s) (List.cons.inj (List.cons.inj h).2).2
      exact ⟨rfl, (List.cons.inj hrs).2⟩
    | _ => cases hkind
  | address frame slot =>
    cases p with
    | address frame' slot' =>
      have hframe : Nat.toDigits 10 frame ++ ' ' :: (Nat.toDigits 10 slot ++ '\n' :: r) =
          Nat.toDigits 10 frame' ++ ' ' :: (Nat.toDigits 10 slot' ++ '\n' :: s) := by simpa [text] using h
      obtain ⟨rfl, hslot⟩ := digits_of_append (.cons rfl _) (.cons rfl _) hframe
      obtain ⟨rfl, hrs⟩ := digits_of_append (hend r) (hend s) (List.cons.inj hslot).2
      exact ⟨rfl, (List.cons.inj hrs).2⟩
    | _ => cases hkind
  | offset n =>
    cases p with
    | offset m =>
      obtain ⟨rfl, hrs⟩ := int_of_append (hend r) (hend s) (List.cons.inj h).2
      exact ⟨rfl, (List.cons.inj hrs).2⟩
    | _ => cases hkind
  | args n =>
    cases p with
    | args m =>
      obtain ⟨rfl, hrs⟩ := digits_of_append (hend r) (hend s) (List.cons.inj h).2
      exact ⟨rfl, (List.cons.inj hrs).2⟩
    | _ => cases hkind

theorem not_isUpper_text (o : Operand) (r : List Char) : ∀ c ∈ (o.text ++ '\n' :: r).head?, c.isUpper = false := by
  intro c hc
  cases o <;> cases hc <;> rfl

end Operand

namespace Instruction

def ofParts? : String → Operand → Option Instruction
  | "LDV", .literal x => some (.ldv x)
  | "LDF", .function f => some (.ldf f)
  | "BLD", .address frame slot => some (.bld frame slot)
  | "BST", .address frame slot => some (.bst frame slot)
  | "ADD", .none => some .add
  | "SUB", .none => some .sub
  | "MUL", .none => some .mul
  | "DIV", .none => some .div
  | "POW", .none => some .pow
  | "CAT", .none => some .cat
  | "EQ", .none => some .eq
  | "GT", .none => some .gt
  | "GTE", .none => some .gte
  | "LT", .none => some .lt
  | "LTE", .none => some .lte
  | "BF", .offset n => some (.bf n)
  | "BR", .offset n => some (.br n)
  | "APP", .args n => some (.app n)
  | "RET", .none => some .ret
  | "PRN", .none => some .prn
  | "INP", .none => some .inp
  | "LEN", .none => some .len
  | "LTK", .none => some .ltk
  | "HLT", .none => some .hlt
  | _, _ => none

def operandKind : String → Operand.Kind
  | "LDV" => .literal
  | "LDF" => .function
  | "BLD" | "BST" => .address
  | "BF" | "BR" => .offset
  | "APP" => .args
  | _ => .none

theorem ofParts?_parts (i : Instruction) : ofParts? i.opcode i.operand = some i := by
  cases i <;> rfl

theorem kind_operand (i : Instruction) : i.operand.kind = operandKind i.opcode := by
  cases i <;> rfl

theorem strings_operand (i : Instruction) : i.operand.strings = i.strings := by
  cases i <;> rfl

theorem eq_of_append {i j : Instruction} {r s : List Char} (hi : AllTerminated i.strings) (hj : AllTerminated j.strings)
    (h : i.render.toList ++ '\n' :: r = j.render.toList ++ '\n' :: s) : i = j ∧ r = s := by
  rw [toList_render, toList_render, List.append_assoc, List.append_assoc] at h
  obtain ⟨hopcode, hrest⟩ := eq_of_run_append_eq (fun _ => isUpper_of_mem_opcode) (fun _ => isUpper_of_mem_opcode)
    (i.operand.not_isUpper_text r) (j.operand.not_isUpper_text s) h
  have hopcode := String.toList_inj.mp hopcode
  rw [← strings_operand] at hi hj
  obtain ⟨hoperand, hrs⟩ := Operand.eq_of_append (by rw [kind_operand, kind_operand, hopcode]) hi hj hrest
  have hparts := i.ofParts?_parts
  rw [hopcode, hoperand, j.ofParts?_parts] at hparts
  exact ⟨(Option.some.inj hparts).symm, hrs⟩

theorem render_ne_dollar (i : Instruction) {r s : List Char} : i.render.toList ++ r ≠ '$' :: s := by
  have hopcode : i.opcode.toList ≠ [] := by cases i <;> simp [opcode, render]
  obtain ⟨c, cs, hcs⟩ := List.exists_cons_of_ne_nil hopcode
  have hc : c.isUpper = true := isUpper_of_mem_opcode (hcs ▸ List.mem_cons_self)
  rw [toList_render, hcs]
  intro h
  obtain rfl : c = '$' := (List.cons.inj h).1
  cases hc

end Instruction

/-! ## Functions -/

theorem Code.eq_of_append {code code' : Code} {r s : List Char} (hcode : AllTerminated code.strings)
    (hcode' : AllTerminated code'.strings)
    (h : fileText (code.map Instruction.render) ++ '$' :: r = fileText (code'.map Instruction.render) ++ '$' :: s) :
    code = code' ∧ r = s := by
  induction code generalizing code' with
  | nil =>
    cases code' with
    | nil => exact ⟨rfl, (List.cons.inj h).2⟩
    | cons j code' =>
      rw [List.map_cons, fileText_cons_append] at h
      exact absurd h.symm j.render_ne_dollar
  | cons i code ih =>
    rw [List.map_cons, fileText_cons_append] at h
    cases code' with
    | nil => exact absurd h i.render_ne_dollar
    | cons j code' =>
      obtain ⟨hi, hmore⟩ := List.forall_mem_append.mp hcode
      obtain ⟨hj, hmore'⟩ := List.forall_mem_append.mp hcode'
      rw [List.map_cons, fileText_cons_append] at h
      obtain ⟨rfl, hrest⟩ := Instruction.eq_of_append hi hj h
      obtain ⟨rfl, hrs⟩ := ih hmore hmore' hrest
      exact ⟨rfl, hrs⟩

structure FunctionCode.Same (f g : FunctionCode) : Prop where
  id : f.id = g.id
  arity : f.arity = g.arity
  parent : f.parent = g.parent
  code : f.code = g.code

theorem FunctionCode.same_of_append {f g : FunctionCode} {r s : List Char} (hf : AllTerminated f.code.strings)
    (hg : AllTerminated g.code.strings) (h : fileText f.lines ++ r = fileText g.lines ++ s) : f.Same g ∧ r = s := by
  rw [fileText_lines_append, fileText_lines_append] at h
  obtain ⟨hid, h⟩ := digits_of_append (.cons rfl _) (.cons rfl _) (List.append_cancel_left h)
  obtain ⟨harity, h⟩ := digits_of_append (.cons rfl _) (.cons rfl _) (List.append_cancel_left (List.cons.inj h).2)
  obtain ⟨hparent, h⟩ := digits_of_append (.cons rfl _) (.cons rfl _) (List.append_cancel_left (List.cons.inj h).2)
  obtain ⟨hcode, h⟩ := Code.eq_of_append hf hg (List.cons.inj h).2
  exact ⟨⟨hid, harity, hparent, hcode⟩, List.append_cancel_left h⟩

theorem FunctionCode.Same.lines {f g : FunctionCode} (h : f.Same g) : f.lines = g.lines := by
  rw [FunctionCode.lines, FunctionCode.lines, h.id, h.arity, h.parent, h.code]

theorem FunctionCode.fileText_lines_ne_nil (f : FunctionCode) (rest : List Char) : fileText f.lines ++ rest ≠ [] := by
  rw [fileText_lines_append]
  simp

theorem same_of_fileText {fs gs : List FunctionCode} (hfs : ∀ f ∈ fs, AllTerminated f.code.strings)
    (hgs : ∀ g ∈ gs, AllTerminated g.code.strings)
    (h : fileText (fs.flatMap FunctionCode.lines) = fileText (gs.flatMap FunctionCode.lines)) :
    List.Forall₂ FunctionCode.Same fs gs := by
  induction fs generalizing gs with
  | nil =>
    cases gs with
    | nil => exact .nil
    | cons g gs =>
      rw [List.flatMap_cons, fileText_append] at h
      exact absurd h.symm (g.fileText_lines_ne_nil _)
  | cons f fs ih =>
    rw [List.flatMap_cons, fileText_append] at h
    cases gs with
    | nil => exact absurd h (f.fileText_lines_ne_nil _)
    | cons g gs =>
      obtain ⟨hf, hmore⟩ := List.forall_mem_cons.mp hfs
      obtain ⟨hg, hmore'⟩ := List.forall_mem_cons.mp hgs
      rw [List.flatMap_cons, fileText_append] at h
      obtain ⟨hsame, hrest⟩ := FunctionCode.same_of_append hf hg h
      exact .cons hsame (ih hmore hmore' hrest)

theorem lines_of_same {fs gs : List FunctionCode} (h : List.Forall₂ FunctionCode.Same fs gs) :
    fs.flatMap FunctionCode.lines = gs.flatMap FunctionCode.lines := by
  induction h with
  | nil => rfl
  | cons h _ ih => rw [List.flatMap_cons, List.flatMap_cons, h.lines, ih]

theorem Assembly.render_eq_iff {a b : Assembly} (ha : AllTerminated a.strings) (hb : AllTerminated b.strings) :
    a.render = b.render ↔ List.Forall₂ FunctionCode.Same a.functions b.functions := by
  have hall : ∀ {c : Assembly}, AllTerminated c.strings → ∀ f ∈ c.functions, AllTerminated f.code.strings :=
    fun hc f hf s hs => hc s (List.mem_flatMap_of_mem hf hs)
  rw [← String.toList_inj, toList_render, toList_render]
  exact ⟨same_of_fileText (hall ha) (hall hb), fun h => congrArg fileText (lines_of_same h)⟩

/-- Compiled programs have the same text if and only if they have the same functions. -/
theorem compile_render_eq_iff {options options' : Options} {source source' : List Char} {a b : Assembly}
    (hsize : byteLength source < 2 ^ 32) (hsize' : byteLength source' < 2 ^ 32)
    (ha : (compile options source).result = .ok a) (hb : (compile options' source').result = .ok b) :
    a.render = b.render ↔ List.Forall₂ FunctionCode.Same a.functions b.functions := by
  have hterminated : ∀ {options source a}, byteLength source < 2 ^ 32 → (compile options source).result = .ok a →
      AllTerminated a.strings := by
    intro options source a hsize ha s hs
    obtain ⟨t, -, -, ht, rfl⟩ := compile_strings hsize ha s hs
    exact ht
  exact Assembly.render_eq_iff (hterminated hsize ha) (hterminated hsize' hb)

def namedSource : List Char := "let xs = [\"a], \\\"b\n$END\", [2.5, -1], []] fun f(n) { return n } print(f(xs))".toList

def renamedSource : List Char :=
  "fun g(m) { return m } let ys = [\"a], \\\"b\n$END\", [2.50, -1], []] print(g(ys))".toList

theorem compile_render_eq_of_renamedSource : ∃ a b, (compile {} namedSource).result = .ok a ∧
    (compile {} renamedSource).result = .ok b ∧ a.functions.map (·.name) ≠ b.functions.map (·.name) ∧
    a.render = b.render ∧ List.Forall₂ FunctionCode.Same a.functions b.functions := by
  obtain ⟨a, ha, hp⟩ := exists_of_compile {} namedSource (p := fun a =>
    (compile {} renamedSource).result.toOption.any fun b =>
      a.functions.map (·.name) ≠ b.functions.map (·.name) ∧ a.render = b.render) (by decide +kernel)
  obtain ⟨b, hb, hq⟩ := exists_of_compile {} renamedSource hp
  obtain ⟨hnames, hrender⟩ := of_decide_eq_true hq
  have hsame := (compile_render_eq_iff (by decide +kernel) (by decide +kernel) ha hb).mp hrender
  exact ⟨a, b, ha, hb, hnames, hrender, hsame⟩

end Bies
