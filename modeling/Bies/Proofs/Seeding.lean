import Bies.Proofs.ErrorSpans
import Bies.Proofs.Records
import Bies.Proofs.Slots

/-!
# What a call records

A call records values for the parameters of the function with the called name. It does so whatever it loads: if
the name is that of a variable where the call stands, the function is not called and its parameters are given
values all the same.
-/

namespace Bies

open List

/-! ## The parameters in a frame -/

section
variable {F : Frame} {params : List String} {name : String} {value : Option Node}

theorem Frame.take_bind (h : params <+: F.map (·.name)) (hname : name ∉ params) :
    (F.bind name value).2.take params.length = F.take params.length := by
  have hlength := h.length_le
  rw [length_map] at hlength
  obtain ⟨more, hmore⟩ := h
  unfold Frame.bind
  split
  next slot hslot =>
    -- the slot of the name comes behind those of the parameters
    have hle : params.length ≤ slot := by
      rw [slot?_eq, ← hmore, findIdx?_append] at hslot
      have hnone : params.findIdx? (· = name) = none := by
        rw [findIdx?_eq_none_iff]
        exact fun x hx => decide_eq_false fun hxn => hname (hxn ▸ hx)
      rw [hnone, Option.none_or] at hslot
      obtain ⟨k, -, rfl⟩ := Option.map_eq_some_iff.mp hslot
      exact Nat.le_add_left _ _
    apply ext_getElem?
    intro k
    rw [getElem?_take, getElem?_take, getElem?_modify]
    split
    next hk => simp [show slot ≠ k by omega]
    next => rfl
  next => exact take_append_of_le_length hlength

theorem Frame.values_take_seed : ∀ {F : Frame} {values : List (Option Node)}, values.length ≤ F.length →
    ((F.seed values).take values.length).map (·.value) = values
  | _, [], _ => by simp
  | b :: rest, value :: values, h => by
    have ih := values_take_seed (Nat.le_of_succ_le_succ h)
    simp [Frame.seed, ih]

end

namespace Frames

/-- The values that the parameters of the function are taken to hold. -/
def parameters (fs : Frames) (r : FunctionRecord) : List (Option Node) := ((fs.frame r.id).take r.arity).map (·.value)

variable {fs : Frames} {r : FunctionRecord} {f : FunctionId} {values : List (Option Node)}

theorem frame_seed : (fs.seed f values).frame f = (fs.frame f).seed values := by
  unfold frame get? seed
  rw [getElem?_modify]
  cases fs.frames[f]? with
  | none => rfl
  | some F => simp

theorem parameters_seed_ne (h : r.id ≠ f) : (fs.seed f values).parameters r = fs.parameters r := by
  unfold parameters frame get? seed
  rw [getElem?_modify]
  simp [h.symm]

section
variable (h : r.params <+: (fs.frame r.id).map (·.name))
include h

theorem parameters_seed (hvalues : values.length = r.arity) : (fs.seed r.id values).parameters r = values := by
  have hlength := h.length_le
  rw [length_map] at hlength
  rw [parameters, frame_seed, ← hvalues]
  exact Frame.values_take_seed (hvalues ▸ hlength)

theorem parameters_bind {name : String} {value : Option Node} (hf : f < fs.frames.length)
    (hname : r.id = f → name ∉ r.params) : (fs.bind f name value).2.parameters r = fs.parameters r := by
  unfold parameters
  by_cases hr : r.id = f
  · subst hr
    rw [(frame_bind hf).2, FunctionRecord.arity, Frame.take_bind h (hname rfl)]
  · rw [frame_bind_ne hr]

end

theorem not_mem_of_resolve? {name : String} {chain : List FunctionId} (hchain : chain.head? = some f)
    (h : fs.resolve? name chain = none) : name ∉ (fs.frame f).map (·.name) := by
  obtain ⟨outer, rfl⟩ := head?_eq_some_iff.mp hchain
  rw [resolve?_cons] at h
  split at h
  next => cases h
  next hslot =>
    rw [Frame.slot?_eq, findIdx?_eq_none_iff] at hslot
    exact fun hmem => by simpa using hslot name hmem

end Frames

/-! ## The steps of a call -/

namespace Lowering

section
variable {c : Context} {tag : Tag} {name : String} {args : List Node} {code : Code} {s s' : State}

theorem finishCall_of_get?_none (hget : c.table.get? name = none)
    (h : (finishCall c tag name args).run s = .ok code s') :
    s'.frames = s.frames ∨ ∃ x value, (x = s!"{inputName}#{tag.id}" ∨ x = name ∧
      s.frames.resolve? name c.chain = none) ∧
      s'.frames = (s.frames.bind c.function x value).2 := by
  unfold finishCall at h
  obtain ⟨_, s₁, h₁, h⟩ := bind_eq_ok.mp h
  obtain ⟨rfl, rfl⟩ := get_eq_ok.mp h₁
  split at h
  · split at h
    · obtain ⟨-, rfl⟩ := pure_eq_ok.mp h
      exact .inl rfl
    · obtain ⟨slot, s₁, h₁, h⟩ := bind_eq_ok.mp h
      obtain ⟨-, rfl⟩ := pure_eq_ok.mp h
      exact .inr ⟨_, _, .inl rfl, (bind_eq h₁).2⟩
  · obtain ⟨i, s₁, h₁, h⟩ := bind_eq_ok.mp h
    rw [hget] at h
    obtain ⟨-, rfl⟩ := pure_eq_ok.mp h
    rcases loadName_eq_ok h₁ with ⟨b, -, -, hframes⟩ | ⟨r, -, -, -, hframes⟩ | ⟨hunbound, -, hframes, -⟩
    · exact .inl hframes
    · exact .inl hframes
    · exact .inr ⟨name, none, .inr ⟨rfl, hunbound⟩, hframes⟩

/-- What a call loads if a function has the name: the variable of that name, if there is one. -/
def callee (c : Context) (frames : Frames) (r : FunctionRecord) : Instruction :=
  match frames.resolve? r.name c.chain with
  | some b => .bld b.frame b.slot
  | none => .ldf r.id

theorem finishCall_run {r : FunctionRecord} (hget : c.table.get? name = some r) (s : State) :
    (finishCall c tag name args).run s = .ok [callee c s.frames r, .app args.length]
      { s with frames := s.frames.seed r.id (parameterValues c s.frames r args) } := by
  have hname : r.name = name := by simpa using find?_some hget
  have hbuiltin : isBuiltin c s.frames name = false := by simp [isBuiltin, hget]
  have hloaded : (loadName c name tag.span).run s = .ok (callee c s.frames r) s := by
    unfold loadName callee
    refine bind_eq_ok.mpr ⟨s, s, rfl, ?_⟩
    rw [hname, hget]
    cases s.frames.resolve? name c.chain <;> rfl
  unfold finishCall
  refine bind_eq_ok.mpr ⟨s, s, rfl, ?_⟩
  rw [hbuiltin, if_neg Bool.false_ne_true]
  refine bind_eq_ok.mpr ⟨_, s, hloaded, ?_⟩
  rw [hget]
  rfl

end

/-! ## The calls of a program -/

section
variable {source : List Char} {tree : Tree} {table : FunctionTable}

theorem plain_params_of_parse (hsize : byteLength source < 2 ^ 32) (hparse : Tree.parse source = .ok tree)
    (hload : (FunctionTable.ofProgram (.ofTree source tree)).result = .ok table) {r : FunctionRecord}
    (hr : r ∈ table.records) : ∀ x ∈ r.params, IsPlain x := by
  have hmatches : Tree.Matches (fun _ _ => True) source source tree tree :=
    tree.matches_self fun t ht => ⟨trivial, Tree.isPlain_of_parse hsize hparse t ht⟩
  obtain ⟨hok, -, w, halike⟩ | ⟨he, -, -⟩ :=
    FunctionTable.ofProgram_alike ((Program.matching (fun _ _ => True) source source).ofTree hmatches)
  · rw [hload] at hok
    cases hok
    obtain ⟨k, hk⟩ := getElem?_of_mem hr
    have hrecords := forall₂_getElem? halike k
    rw [hk] at hrecords
    obtain ⟨hnone, -⟩ | ⟨_, _, hsome, -, halike⟩ := rel_cases hrecords
    · cases hnone
    · cases hsome
      exact halike.plain
  · rw [hload] at he
    cases he

end

section
variable {table : FunctionTable} {options : Options} {f : FunctionId} {s s' : State} {tag : Tag}
  {name : String} {args : List Node}
  {code : Code} (hnumbered : table.Numbered) (hs : (Frames.ofTable table).Extends s.frames)
  (h : (finishCall ⟨table, options, f, table.chain f⟩ tag name args).run s = .ok code s')

theorem isPrefix_params (hnumbered : table.Numbered) {fs : Frames} (hfs : (Frames.ofTable table).Extends fs)
    {r : FunctionRecord} (hr : r ∈ table.records) : r.params <+: (fs.frame r.id).map (·.name) := by
  obtain ⟨k, hk⟩ := getElem?_of_mem hr
  obtain rfl := hnumbered.id_eq hk
  obtain ⟨more, hmore⟩ := hfs.frame r.id
  exact ⟨more, by rw [hmore, names_ofTable hk]⟩

theorem get?_of_mem_records (hnumbered : table.Numbered) {r : FunctionRecord} (hr : r ∈ table.records) :
    table.get? r.name = some r := by
  obtain ⟨k, hk⟩ := getElem?_of_mem hr
  rw [FunctionTable.get?_of_name hnumbered.nodup (f := k) (by rw [FunctionTable.getElem?_names, hk, Option.map_some]),
    hk]

include hnumbered hs h

theorem parameters_finishCall_of_ne (hplain : ∀ r ∈ table.records, ∀ x ∈ r.params, IsPlain x)
    (hf : f < table.size) {r : FunctionRecord} (hr : r ∈ table.records) (hne : r.name ≠ name) :
    s'.frames.parameters r = s.frames.parameters r := by
  have hparams := isPrefix_params hnumbered hs hr
  cases hget : table.get? name with
  | some callee =>
    rw [finishCall_run hget] at h
    obtain ⟨-, rfl⟩ := EStateM.Result.ok.inj h
    -- functions with different names have different numbers
    refine Frames.parameters_seed_ne fun hid => hne ?_
    obtain ⟨k, hk⟩ := getElem?_of_mem hr
    obtain ⟨j, hj⟩ := getElem?_of_mem (mem_of_find?_eq_some hget)
    obtain rfl := hnumbered.id_eq hk
    obtain rfl := hnumbered.id_eq hj
    rw [hid, hj] at hk
    cases hk
    simpa using find?_some hget
  | none =>
    have hcount : f < s.frames.frames.length := by
      rw [hs.count, Frames.ofTable, length_map]
      exact hf
    obtain hframes | ⟨x, value, hx, hframes⟩ := finishCall_of_get?_none hget h
    · rw [hframes]
    · rw [hframes]
      refine Frames.parameters_bind hparams hcount fun hrf hmem => ?_
      rcases hx with rfl | ⟨rfl, hunbound⟩
      · exact hplain r hr _ hmem (Renumbering.hash_mem_inputName tag.id)
      · subst hrf
        exact Frames.not_mem_of_resolve? rfl hunbound (hparams.subset hmem)

theorem parameters_finishCall {r : FunctionRecord} (hr : r ∈ table.records) (hname : r.name = name) :
    s'.frames.parameters r = parameterValues ⟨table, options, f, table.chain f⟩ s.frames r args := by
  subst hname
  rw [finishCall_run (get?_of_mem_records hnumbered hr)] at h
  obtain ⟨-, rfl⟩ := EStateM.Result.ok.inj h
  exact Frames.parameters_seed (isPrefix_params hnumbered hs hr) (by simp [parameterValues])

end

/-- A call records values for the function of its name and for no other, and loads the variable of that name if
there is one. So just the function that is loaded is given new values, unless the call of a variable gives some
to its namesake. The state may be any that lowering comes to, since frames gain slots and do nothing else. -/
theorem finishCall_records {source : List Char} (hsize : byteLength source < 2 ^ 32) {tree : Tree}
    (hparse : Tree.parse source = .ok tree) {table : FunctionTable}
    (hload : (FunctionTable.ofProgram (.ofTree source tree)).result = .ok table) (options : Options) {f : FunctionId}
    (hf : f < table.size) {s s' : State} (hs : (Frames.ofTable table).Extends s.frames) {tag : Tag} {name : String}
    {args : List Node} {code : Code}
    (h : (finishCall ⟨table, options, f, table.chain f⟩ tag name args).run s = .ok code s') :
    let c : Context := ⟨table, options, f, table.chain f⟩
    (∀ r ∈ table.records, s'.frames.parameters r =
      if r.name = name then parameterValues c s.frames r args else s.frames.parameters r) ∧
    (∀ r ∈ table.records, r.name = name → code = [callee c s.frames r, .app args.length]) ∧
    ((∀ r ∈ table.records, s'.frames.parameters r ≠ s.frames.parameters r →
      code = [.ldf r.id, .app args.length]) ↔
      ∀ r ∈ table.records, r.name = name → s.frames.resolve? name c.chain = none ∨
        parameterValues c s.frames r args = s.frames.parameters r) := by
  intro c
  have hnumbered : table.Numbered := (FunctionTable.changes_of_ofProgram hload (x := "") (by decide)).1
  have hrecorded : ∀ r ∈ table.records, s'.frames.parameters r =
      if r.name = name then parameterValues c s.frames r args else s.frames.parameters r := by
    intro r hr
    split
    next hname => exact parameters_finishCall hnumbered hs h hr hname
    next hname =>
      exact parameters_finishCall_of_ne hnumbered hs h (fun r => plain_params_of_parse hsize hparse hload) hf hr hname
  have hcode : ∀ r ∈ table.records, r.name = name → code = [callee c s.frames r, .app args.length] := by
    rintro r hr rfl
    rw [finishCall_run (get?_of_mem_records hnumbered hr)] at h
    exact (EStateM.Result.ok.inj h).1.symm
  refine ⟨hrecorded, hcode, ?_⟩
  constructor
  · intro honly r hr hname
    by_contra hcontra
    rw [not_or] at hcontra
    obtain ⟨hbound, hvalues⟩ := hcontra
    have hldf := honly r hr (by rw [hrecorded r hr, if_pos hname]; exact hvalues)
    rw [hcode r hr hname, callee, hname] at hldf
    obtain ⟨b, hb⟩ := Option.ne_none_iff_exists'.mp hbound
    rw [hb] at hldf
    cases hldf
  · intro hfree r hr hchange
    rw [hrecorded r hr] at hchange
    split at hchange
    next hname =>
      have hunbound := (hfree r hr hname).resolve_right hchange
      rw [hcode r hr hname, callee, hname, hunbound]
    next => exact absurd rfl hchange

def seededSource : List Char := "fun g(a, b) { print(a + b) } fun f(h) { g(h, 1) h(2) } f(g)".toList

theorem finishCall_records_of_seededSource : ∃ tree table r, Tree.parse seededSource = .ok tree ∧
    (FunctionTable.ofProgram (.ofTree seededSource tree)).result = .ok table ∧ table.get? "g" = some r ∧
    ∀ (tag : Tag) (x y : Node), ∃ s',
      (finishCall ⟨table, {}, 2, table.chain 2⟩ tag "g" [x, y]).run { frames := .ofTable table } = .ok
        [.ldf 1, .app 2] s' ∧
      s'.frames.parameters r = [some x, some y] ∧
      ∀ q ∈ table.records, s'.frames.parameters q ≠ (Frames.ofTable table).parameters q → q.id = 1 := by
  obtain ⟨tree, hparse, hp⟩ := Tree.exists_of_parse seededSource (p := fun tree =>
    (FunctionTable.ofProgram (.ofTree seededSource tree)).result.toOption.any fun table : FunctionTable =>
      decide (table.size = 3) && ((Frames.ofTable table).resolve? "g" (table.chain 2)).isNone &&
        (table.get? "g").any fun r : FunctionRecord => decide (r.id = 1 ∧ r.arity = 2)) (by decide +kernel)
  cases hload : (FunctionTable.ofProgram (.ofTree seededSource tree)).result with
  | error e =>
    rw [hload] at hp
    cases hp
  | ok table =>
    rw [hload] at hp
    simp only [Except.toOption, Option.any_some, Bool.and_eq_true, decide_eq_true_eq, Option.isNone_iff_eq_none,
      Option.any_eq_true] at hp
    obtain ⟨⟨hcount, hunbound⟩, r, hget, hid, harity⟩ := hp
    have hname : r.name = "g" := by simpa using find?_some hget
    refine ⟨tree, table, r, hparse, hload, hget, fun tag x y => ?_⟩
    let c : Context := ⟨table, {}, 2, table.chain 2⟩
    have hrun : (finishCall c tag "g" [x, y]).run { frames := .ofTable table } = .ok _ _ := finishCall_run hget _
    have hcallee : callee c (.ofTable table) r = .ldf 1 := by rw [callee, hname, hunbound, hid]
    obtain ⟨hrecorded, -, honly⟩ :=
      finishCall_records (by decide +kernel) hparse hload {} (hcount ▸ by decide) (.refl _) hrun
    refine ⟨_, hcallee ▸ hrun, ?_, fun q hq hchange => ?_⟩
    · rw [hrecorded r (mem_of_find?_eq_some hget), if_pos hname, parameterValues, harity]
      rfl
    · have hcode := honly.mpr (fun _ _ _ => .inl hunbound) q hq hchange
      rw [hcallee] at hcode
      exact (Instruction.ldf.inj (cons.inj hcode).1).symm

/-- In `f`, the name `g` is that of a parameter. -/
def namesakeSource : List Char := "fun f(g) \x7b g(\"x\") \x7d fun g(a) { print(a + 1) }".toList

/-- The function `g` is given the argument of the call in `f`, which calls the parameter, and then joins texts. -/
theorem parameters_ne_of_namesakeSource : ∃ tree table r, Tree.parse namesakeSource = .ok tree ∧
    (FunctionTable.ofProgram (.ofTree namesakeSource tree)).result = .ok table ∧ r ∈ table.records ∧
    (∀ (tag : Tag) (x : Node), ∃ s',
      (finishCall ⟨table, {}, 1, table.chain 1⟩ tag "g" [x]).run { frames := .ofTable table } = .ok
        [.bld 0 0, .app 1] s' ∧
      s'.frames.parameters r = [some x] ∧ some x ∉ (Frames.ofTable table).parameters r) ∧
    (compile {} namesakeSource).result.toOption.map (·.lines) = some ["$FUN $0 args:0 parent:$0", "HLT", "$END",
      "$FUN $1 args:1 parent:$0", "LDV \"x\"", "BLD 0 0", "APP 1", "$END",
      "$FUN $2 args:1 parent:$0", "LDV 1", "BLD 0 0", "CAT", "PRN", "$END"] := by
  obtain ⟨tree, hparse, hp⟩ := Tree.exists_of_parse namesakeSource (p := fun tree =>
    (FunctionTable.ofProgram (.ofTree namesakeSource tree)).result.toOption.any fun table : FunctionTable =>
      ((Frames.ofTable table).resolve? "g" (table.chain 1)).any
        (fun b : Resolved => decide (b.frame = 0 ∧ b.slot = 0)) &&
        (table.get? "g").any fun r : FunctionRecord =>
          decide (r.arity = 1) && ((Frames.ofTable table).parameters r).all (·.isNone)) (by decide +kernel)
  cases hload : (FunctionTable.ofProgram (.ofTree namesakeSource tree)).result with
  | error e =>
    rw [hload] at hp
    cases hp
  | ok table =>
    rw [hload] at hp
    simp only [Except.toOption, Option.any_some, Bool.and_eq_true, decide_eq_true_eq, all_eq_true,
      Option.any_eq_true] at hp
    obtain ⟨⟨b, hbound, hframe, hslot⟩, r, hget, harity, hnone⟩ := hp
    have hname : r.name = "g" := by simpa using find?_some hget
    have hr : r ∈ table.records := mem_of_find?_eq_some hget
    refine ⟨tree, table, r, hparse, hload, hr, fun tag x => ?_, by decide +kernel⟩
    let c : Context := ⟨table, {}, 1, table.chain 1⟩
    have hrun : (finishCall c tag "g" [x]).run { frames := .ofTable table } = .ok _ _ := finishCall_run hget _
    have hcallee : callee c (.ofTable table) r = .bld 0 0 := by
      simp only [callee, c, hname, hbound, hframe, hslot]
    have hnumbered : table.Numbered := (FunctionTable.changes_of_ofProgram hload (x := "") (by decide)).1
    refine ⟨_, hcallee ▸ hrun, ?_, fun hmem => by cases hnone _ hmem⟩
    rw [parameters_finishCall hnumbered (.refl _) hrun hr hname, parameterValues, harity]
    rfl

end Lowering
end Bies
