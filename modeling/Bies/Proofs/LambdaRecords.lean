import Bies.Proofs.FoldedNodes
import Bies.Proofs.NodeIdentity
import Bies.Proofs.Records

/-!
# Lambdas without a name

A lambda that is not declared with a name gets a record named after the number of its node. Names in a source
have no `#`, so nothing else in the program declares that name or writes to the record.
-/

namespace Bies

open Loading Lowering.Plain

/-! ## Functions on file -/

def Node.isBody : Node → Bool
  | .block .. | .ret .. => true
  | _ => false

/-- The table holds the function that the node stands for, if it stands for one, with a name that tells which; `f` is the
function around the node. -/
def Node.Filed (t : FunctionTable) (f : FunctionId) : Node → Prop
  | .funDecl _ name _ g => '#' ∉ name.toList ∧ t.names[g]? = some name
  | .lambda tag params body g => body.isBody = true ∧
    t.records[g]? = some ⟨g, s!"lambda#{tag.id}", params, some f, Node.entries body.statements⟩
  | _ => True

theorem Node.Filed.mono {t t' : FunctionTable} {f : FunctionId} {n : Node} (h : n.Filed t f)
    (hnames : t.names <+: t'.names)
    (hrecords : ∀ {g : FunctionId} {r : FunctionRecord}, t.records[g]? = some r → r.name = s!"lambda#{n.id}" →
      t'.records[g]? = some r) : n.Filed t' f := by
  cases n with
  | funDecl tag name params g => exact ⟨h.1, Loading.getElem?_mono hnames h.2⟩
  | lambda tag params body g => exact ⟨h.1, hrecords h.2 rfl⟩
  | _ => trivial

theorem Node.filed_of_not_isFunction {t : FunctionTable} {f : FunctionId} {n : Node} (h : n.isFunction = false) :
    n.Filed t f := by
  cases n with
  | funDecl | lambda => cases h
  | _ => trivial

theorem Body.isBody_of_becomes {all : List String} {body : Body} {b : Node} (h : body.Becomes all b) :
    b.isBody = true := by
  cases body with
  | block | value =>
    obtain ⟨_, _, _, rfl⟩ := h
    rfl

namespace FunctionTable

variable {t : FunctionTable} {f g : FunctionId} {r : FunctionRecord} {name home : String} {params : List String}
  {parent : FunctionId}

theorem getElem?_modify_of_name {change : FunctionRecord → FunctionRecord} (hf : t.names[f]? = some home)
    (hr : t.records[g]? = some r) (hne : home ≠ r.name) : (t.records.modify f change)[g]? = some r := by
  have hfg : f ≠ g := by
    rintro rfl
    rw [getElem?_names, hr] at hf
    exact hne (Option.some.inj hf).symm
  rw [List.getElem?_modify, hr]
  simp [hfg]

theorem getElem?_declare_of_name (hr : t.records[g]? = some r) (hne : name ≠ r.name) :
    (t.declare name params parent).2.records[g]? = some r := by
  unfold declare
  split
  · rw [List.getElem?_map, hr, Option.map_some, if_neg (Ne.symm hne)]
  · rw [List.getElem?_append_left (List.getElem?_eq_some_iff.mp hr).1, hr]

end FunctionTable

namespace Loading

/-- The body of the function `f` with the name `home` is being read. The functions of the nodes that have been
made are on file, and `f` is not that of a lambda among them. -/
structure Reading (f : FunctionId) (home : String) (held : List Made) (s : Ledger) : Prop where
  registered : Registered held s
  numbered : s.table.Numbered
  rising : s.Rising
  named : s.table.names[f]? = some home
  apart : ∀ m ∈ s.made, home ≠ s!"lambda#{m.node.id}"
  filed : ∀ m ∈ s.made, m.node.Filed s.table m.function

namespace Reading

variable {home name : String} {held : List Made} {s s' : Ledger} {f g : FunctionId} {n : Node} {params : List String}

theorem lt_size (h : Reading f home held s) : f < s.table.size := by
  simpa [FunctionTable.names, FunctionTable.size] using (List.getElem?_eq_some_iff.mp h.named).1

theorem number (h : Reading f home held s) : Reading f home held s.number :=
  ⟨h.registered.number, h.numbered, h.rising.number, h.named, h.apart, h.filed⟩

theorem append (h : Reading f home held s) (hn : Made.mk f n ∈ held) : Reading f home held (s.append f n) where
  registered := h.registered.append hn
  numbered := h.numbered.append
  rising := h.rising.append
  named := (FunctionTable.names_append : (s.table.append f n).names = _) ▸ h.named
  apart := h.apart
  filed m hm := (h.filed m hm).mono ((FunctionTable.names_append : (s.table.append f n).names = _) ▸ List.prefix_rfl)
    fun hr hname => FunctionTable.getElem?_modify_of_name h.named hr (hname ▸ h.apart m hm)

theorem clear (h : Reading f home held s) : Reading f home held (s.clear f) where
  registered := h.registered.clear f
  numbered := h.numbered.clear
  rising := h.rising.clear
  named := (FunctionTable.names_clear : (s.table.clear f).names = _) ▸ h.named
  apart := h.apart
  filed m hm := (h.filed m hm).mono ((FunctionTable.names_clear : (s.table.clear f).names = _) ▸ List.prefix_rfl)
    fun hr hname => FunctionTable.getElem?_modify_of_name h.named hr (hname ▸ h.apart m hm)

theorem declare (h : Reading f home held s) (hg : g = (s.table.declare name params f).1) (hname : Named s.nextId name)
    (hapart : ∀ m ∈ s.made, name ≠ s!"lambda#{m.node.id}") : Reading g name held (s.declare name params f) where
  registered := h.registered.declare name params f
  numbered := h.numbered.declare
  rising := h.rising.declare hname params f
  named := hg ▸ FunctionTable.name_declare h.numbered.id_eq
  apart := hapart
  filed m hm := (h.filed m hm).mono FunctionTable.names_prefix_declare
    fun hr hm' => FunctionTable.getElem?_declare_of_name hr (hm' ▸ hapart m hm)

/-- What is made has new numbers, which cannot be those in the name of the function. -/
theorem next {ps : List Piece} {ns : List Node} (h : Reading f home held s) (hl : Loaded f ps s ns s')
    (hps : ∀ p ∈ ps, p.Plain) (hfiled : ∀ m ∈ s'.made, m.node.Filed s'.table m.function) :
    Reading f home (held ++ ns.map (Made.mk f)) s' where
  registered := hl.registered h.registered
  numbered := hl.grows.1.numbered h.numbered
  rising := hl.rising hps h.lt_size h.numbered h.rising
  named := getElem?_mono hl.grows.1.names h.named
  apart m hm heq := by
    rcases hl.grows.1.made m hm with hm | hle
    · exact h.apart m hm heq
    · rcases h.rising.named _ (List.mem_of_getElem? h.named) with hplain | ⟨k, hk, hname⟩
      · exact hplain (heq ▸ hash_mem_lambdaName _)
      · exact Nat.not_le_of_lt hk (lambdaName_injective (hname.symm.trans heq) ▸ hle)
  filed := hfiled

end Reading

theorem Reading.record {f g : FunctionId} {home : String} {held : List Made} {s s₁ : Ledger}
    {params : List String} {body : Body} {b : Node} (h : Reading f home held s)
    (hg : g = (s.table.declare s!"lambda#{s.nextId}" params f).1) (hbody : body.PlainNames)
    (hb : Loaded g [body.piece] (s.number.declare s!"lambda#{s.nextId}" params f) [b] s₁) :
    b.isBody = true ∧ s₁.table.records[g]? = some ⟨g, s!"lambda#{s.nextId}", params, some f,
      Node.entries b.statements⟩ := by
  have hw : Watched s!"lambda#{s.nextId}" ⟨g, s!"lambda#{s.nextId}", true⟩
    (s.number.declare s!"lambda#{s.nextId}" params f) :=
    ⟨h.numbered.declare, hg ▸ FunctionTable.name_declare h.numbered.id_eq, fun _ => rfl,
      .inr ⟨_, Nat.lt_succ_self _, rfl⟩⟩
  have hbecomes := becomes_piece.mp (List.forall₂_cons.mp (hb.becomes h.numbered.declare List.prefix_rfl)).1
  have hc := hb.changes List.prefix_rfl hw
  rw [List.flatMap_singleton, declarations_piece,
    Body.declarations_eq_nil (hash_mem_lambdaName _) body hbody, changes_nil,
    if_pos rfl, entriesAll_singleton, entries_piece hbecomes] at hc
  refine ⟨Body.isBody_of_becomes hbecomes, ?_⟩
  have hnew : s!"lambda#{s.nextId}" ∉ s.table.names := fun hmem => (h.rising.named _ hmem).ne_lambdaName rfl
  have hdeclare := FunctionTable.declare_new (f := f) hnew params
  have ht : (s.number.declare s!"lambda#{s.nextId}" params f).table = _ := congrArg Prod.snd hdeclare
  have hw₁ := hw.grow hb.grows.1
  rw [← FunctionTable.get?_of_name hw₁.numbered.nodup hw₁.home, hc,
    FunctionTable.get?_of_name hw.numbered.nodup hw.home, ht,
    hg.trans (congrArg Prod.fst hdeclare)]
  simp [FunctionTable.extend, FunctionTable.size, FunctionRecord.extend]

theorem Loaded.filed {f : FunctionId} {ps : List Piece} {s s' : Ledger} {ns : List Node} (h : Loaded f ps s ns s') :
    ∀ {home : String} {held : List Made}, Reading f home held s → (∀ p ∈ ps, p.Plain) →
      ∀ m ∈ s'.made, m.node.Filed s'.table m.function := by
  induction h with
  | nil => exact fun hr _ => hr.filed
  | cons hn _ ih ihs =>
    intro home held hr hps
    obtain ⟨hp, hps⟩ := List.forall_mem_cons.mp hps
    have hp := List.forall_mem_singleton.mpr hp
    exact ihs (hr.next hn hp (ih hr hp)) hps
  | build hb hns ih =>
    intro home held hr hp
    have hps := hb.plain.mp (List.forall_mem_singleton.mp hp)
    exact List.forall_mem_cons.mpr ⟨Node.filed_of_not_isFunction hb.isFunction, ih hr hps⟩
  | expr _ ih | inner _ _ ih =>
    intro home held hr hp
    have hp := List.forall_mem_singleton.mp hp
    exact ih hr (List.forall_mem_singleton.mpr hp)
  | @declared f stmt s s₁ n hd hn ih | @entry f stmt s s₁ n hn ih =>
    intro home held hr hp
    have hp := List.forall_mem_singleton.mp hp
    have hp : ∀ p ∈ [Piece.stmt stmt], p.Plain := List.forall_mem_singleton.mpr hp
    exact ((hr.next hn hp (ih hr hp)).append (List.mem_append_right _ List.mem_cons_self)).filed
  | @lambda f g _ _ _ s _ _ hg hb ih =>
    intro home held hr hp
    have hp := List.forall_mem_singleton.mp hp
    have hapart : ∀ m ∈ s.made, s!"lambda#{s.nextId}" ≠ s!"lambda#{m.node.id}" := fun m hm heq =>
      Nat.ne_of_gt (hr.registered.lt m hm) (lambdaName_injective heq)
    have hbody := hr.number.declare hg (.inr ⟨_, Nat.lt_succ_self _, rfl⟩) hapart
    have hrecord := hr.record hg hp hb
    exact List.forall_mem_cons.mpr ⟨hrecord, ih hbody (List.forall_mem_singleton.mpr (plain_piece.mpr hp))⟩
  | @lambdaDecl f g _ _ name params _ s _ _ _ hg hb ih =>
    intro home held hr hp
    obtain ⟨hname, hp⟩ := List.forall_mem_singleton.mp hp
    have hapart : ∀ m ∈ s.made, name ≠ s!"lambda#{m.node.id}" :=
      fun m _ heq => hname (heq ▸ hash_mem_lambdaName _)
    have hbody := (hr.number.declare hg (.inl hname) hapart).clear
    have hfiled := ih hbody (List.forall_mem_singleton.mpr (plain_piece.mpr hp))
    exact List.forall_mem_cons.mpr ⟨⟨hname, getElem?_mono hb.grows.1.names hbody.named⟩, hfiled⟩
  | @funDecl f g _ name params _ s _ _ _ hg hb ih =>
    intro home held hr hp
    obtain ⟨hname, hp⟩ := List.forall_mem_singleton.mp hp
    have hapart : ∀ m ∈ s.made, name ≠ s!"lambda#{m.node.id}" :=
      fun m _ heq => hname (heq ▸ hash_mem_lambdaName _)
    have hbody := hr.declare hg (.inl hname) hapart
    have hfiled := ih hbody (List.forall_mem_singleton.mpr (plain_piece.mpr hp))
    exact List.forall_mem_cons.mpr ⟨⟨hname, getElem?_mono hb.grows.1.names hbody.named⟩, hfiled⟩

theorem reading_initial : Reading 0 mainName [] {} :=
  ⟨registered_initial, FunctionTable.numbered_initial, rising_initial, rfl, by simp, by simp⟩

end Loading

theorem FunctionTable.filed_of_ofProgram {program : Program} {table : FunctionTable}
    (h : (ofProgram program).result = .ok table) (hplain : Stmt.AllPlainNames program) :
    ∃ s, Registered [] s ∧ (∀ m ∈ s.made, m.node.Filed s.table m.function) ∧ s.table = table := by
  obtain ⟨nodes, s, hload, rfl⟩ := loaded_of_ofProgram h
  refine ⟨s, (hload.registered registered_initial).sublist (List.nil_sublist _), hload.filed reading_initial
    fun p hp => ?_, rfl⟩
  obtain ⟨stmt, hstmt, rfl⟩ := List.mem_map.mp hp
  exact Stmt.allPlainNames_iff.mp hplain stmt hstmt

def Node.function? : Node → Option FunctionId
  | .funDecl _ _ _ f | .lambda _ _ _ f => some f
  | _ => none

/-! ## Nodes that belong to a function -/

namespace FunctionTable

/-- The node is reached from the sequence of the function `f` without going into the body of a lambda. -/
inductive Owns (t : FunctionTable) (f : FunctionId) : Node → Prop
  | entry {n : Node} : t.Holds f n → Owns t f n
  | child {p c : Node} : Owns t f p → p.isLambda = false → c ∈ p.children → Owns t f c

theorem Owns.reaches {t : FunctionTable} {f : FunctionId} {n : Node} (h : t.Owns f n) : t.Reaches n := by
  induction h with
  | entry hentry => exact .entry hentry
  | child _ _ hc ih => exact .child ih hc

theorem holds_of_mem_statements {t : FunctionTable} {f : FunctionId} {r : FunctionRecord} {nodes : List Node} {n : Node}
    (hr : t.records[f]? = some r) (hsequence : r.sequence = Node.entries nodes) (hn : n ∈ nodes) : t.Holds f n := by
  refine ⟨r, hr, ?_⟩
  rw [hsequence, Node.entries, List.mem_flatMap]
  exact ⟨n, hn, List.mem_append_right _ List.mem_cons_self⟩

end FunctionTable

namespace Loading.Registered

variable {held : List Made} {s : Ledger} {n : Node} {f : FunctionId}

theorem mem_of_owns (h : Registered held s) (hn : s.table.Owns f n) : Made.mk f n ∈ s.made := by
  induction hn with
  | entry hentry => exact h.entries hentry
  | child _ hlambda hc ih =>
    have := h.inner _ ih _ hc
    rwa [Node.scope_eq hlambda] at this

theorem notMem_ids_of_children {m : Made} {c d : Node} {i j : Nat} (h : Registered held s) (hm : m ∈ s.made)
    (hi : m.node.children[i]? = some c) (hj : m.node.children[j]? = some d) (hij : i ≠ j) : c.id ∉ d.ids := by
  intro hmem
  have hc := List.mem_of_getElem? hi
  have hd := List.mem_of_getElem? hj
  obtain ⟨g, k, hk, hkd, hid⟩ := h.exists_of_mem_ids (h.inner _ hm d hd) hmem
  obtain rfl : k = c := congrArg Made.node (h.eq_of_id_eq hk (h.inner _ hm c hc) hid)
  rcases hkd with rfl | hkd
  · exact hij (h.parent_unique hm hm hi hj rfl).2
  · exact h.not_inside_sibling hm hc hd hkd

theorem roots_entries_statements {b : Node} (h : Registered held s) (hm : Made.mk f b ∈ s.made)
    (hbody : b.isBody = true) : roots (Node.entries b.statements) = b.statements := by
  refine roots_entries ?_
  cases b with
  | block tag nodes =>
    rw [List.pairwise_iff_getElem]
    intro i j hi hj hij
    exact h.notMem_ids_of_children hm (List.getElem?_eq_getElem hi) (List.getElem?_eq_getElem hj) (Nat.ne_of_lt hij)
  | ret => exact List.pairwise_singleton _ _
  | _ => cases hbody

/-- What the table reaches belongs to a function, except for the blocks that are bodies of lambdas: only their statements
do. -/
theorem exists_owns (h : Registered held s) (hfiled : ∀ m ∈ s.made, m.node.Filed s.table m.function)
    (hn : s.table.Reaches n) :
    ∃ f, s.table.Owns f n ∨ (n.isLambda = false ∧ ∀ c ∈ n.children, s.table.Owns f c) := by
  induction hn with
  | entry hentry => exact ⟨_, .inl (.entry hentry)⟩
  | @child p c _ hc ih =>
    obtain ⟨f, hp | ⟨-, hchildren⟩⟩ := ih
    · cases hlambda : p.isLambda with
      | false => exact ⟨f, .inl (.child hp hlambda hc)⟩
      | true =>
        cases p with
        | lambda tag params body g =>
          obtain ⟨hbody, hr⟩ := hfiled _ (h.mem_of_owns hp)
          obtain rfl := List.mem_singleton.mp hc
          have howns : ∀ n ∈ c.statements, s.table.Owns g n :=
            fun n hn => .entry (FunctionTable.holds_of_mem_statements hr rfl hn)
          refine ⟨g, ?_⟩
          cases c with
          | block => exact .inr ⟨rfl, howns⟩
          | ret => exact .inl (howns _ List.mem_cons_self)
          | _ => cases hbody
        | _ => cases hlambda
    · exact ⟨f, .inl (hchildren _ hc)⟩

/-- No other node stands for the function of a lambda: its name has the number of the lambda's node. -/
theorem eq_lambda {tag : Tag} {params : List String} {body : Node} (h : Registered held s)
    (hfiled : ∀ m ∈ s.made, m.node.Filed s.table m.function)
    (hlambda : s.table.Reaches (.lambda tag params body f)) (hn : s.table.Reaches n) (hf : n.function? = some f) :
    n = .lambda tag params body f := by
  obtain ⟨p, hp⟩ := h.exists_of_reaches hlambda
  obtain ⟨q, hq⟩ := h.exists_of_reaches hn
  obtain ⟨-, hr⟩ := hfiled _ hp
  have hname : s.table.names[f]? = some s!"lambda#{tag.id}" := by rw [FunctionTable.getElem?_names, hr, Option.map_some]
  have hn := hfiled _ hq
  cases n with
  | funDecl tag' name params' g =>
    obtain rfl := Option.some.inj hf
    obtain rfl := Option.some.inj (hname.symm.trans hn.2)
    exact absurd (hash_mem_lambdaName _) hn.1
  | lambda tag' params' body' g =>
    obtain rfl := Option.some.inj hf
    have heq := Option.some.inj (hr.symm.trans hn.2)
    have hid : tag'.id = tag.id := (lambdaName_injective (congrArg FunctionRecord.name heq)).symm
    exact congrArg Made.node (h.eq_of_id_eq hq hp hid)
  | _ => cases hf

end Loading.Registered

/-! ## The record of a lambda -/

namespace FunctionTable

/-- The function of a lambda that the table holds is that of no other node. Its record has the name made of the
number of the node, the parameters of the lambda, the function the lambda stands in as its parent, and the
statements of the body. -/
theorem lambda_record_of_parse {source : List Char} {tree : Tree} {table : FunctionTable}
    (hsize : byteLength source < 2 ^ 32) (hparse : Tree.parse source = .ok tree)
    (hload : (ofProgram (.ofTree source tree)).result = .ok table) {tag : Tag} {params : List String} {body : Node}
    {f : FunctionId} (hlambda : table.Reaches (.lambda tag params body f)) :
    (∀ n, table.Reaches n → n.function? = some f → n = .lambda tag params body f) ∧
      ∃ r p, table.byId? f = some r ∧ r.name = s!"lambda#{tag.id}" ∧ r.params = params ∧ r.parent = some p ∧
        (∀ q, table.Owns q (.lambda tag params body f) ↔ q = p) ∧
        ((∃ tag' statements, body = .block tag' statements ∧ roots r.sequence = statements) ∨
          ∃ tag' value, body = .ret tag' value ∧ roots r.sequence = [.ret tag' value]) := by
  obtain ⟨s, h, hfiled, rfl⟩ := filed_of_ofProgram hload (Program.plainNames_of_parse hsize hparse)
  refine ⟨fun n hn hf => h.eq_lambda hfiled hlambda hn hf, ?_⟩
  obtain ⟨p, hp | ⟨hno, -⟩⟩ := h.exists_owns hfiled hlambda
  · have hmade := h.mem_of_owns hp
    obtain ⟨hbody, hr⟩ := hfiled _ hmade
    refine ⟨_, p, hr, rfl, rfl, rfl, fun q => ⟨fun hq => ?_, fun hq => hq ▸ hp⟩, ?_⟩
    · obtain ⟨-, hr'⟩ := hfiled _ (h.mem_of_owns hq)
      have hparent := congrArg FunctionRecord.parent (Option.some.inj (hr.symm.trans hr'))
      exact (Option.some.inj hparent).symm
    · have hroots := h.roots_entries_statements (h.inner _ hmade body List.mem_cons_self) hbody
      cases body with
      | block tag' statements => exact .inl ⟨tag', statements, rfl, hroots⟩
      | ret tag' value => exact .inr ⟨tag', value, rfl, hroots⟩
      | _ => cases hbody
  · cases hno

def lambdasSource : List Char := "print((x) => { let y = x return (z) => y })".toList

theorem lambda_record_of_lambdasSource : ∃ tree table n r, Tree.parse lambdasSource = .ok tree ∧
    (ofProgram (.ofTree lambdasSource tree)).result = .ok table ∧ table.Owns 1 n ∧ n.function? = some 2 ∧
    (∀ m, table.Reaches m → m.function? = some 2 → m = n) ∧ table.byId? 2 = some r ∧
      r.name = s!"lambda#{n.id}" ∧
    r.parent = some 1 ∧ ∃ body, n.children = [body] ∧ roots r.sequence = body.statements := by
  obtain ⟨tree, table, hparse, hload, hp⟩ := exists_of_ofSource? lambdasSource (p := fun t =>
    t.records[1]?.any fun r => r.sequence.any fun p => !p.isLambda && p.children.any fun n =>
      n.isLambda && decide (n.function? = some 2)) (by decide +kernel)
  obtain ⟨P, hP, hp⟩ := (Option.any_eq_true _ _).mp hp
  obtain ⟨p, hpP, hp⟩ := List.any_eq_true.mp hp
  obtain ⟨hno, hp⟩ := Bool.and_eq_true_iff.mp hp
  obtain ⟨n, hn, hp⟩ := List.any_eq_true.mp hp
  obtain ⟨hlambda, hf⟩ := Bool.and_eq_true_iff.mp hp
  have howns : table.Owns 1 n := .child (.entry ⟨P, hP, hpP⟩) (Bool.not_eq_eq_eq_not.mp hno) hn
  cases n with
  | lambda tag params body f =>
    obtain rfl : f = 2 := Option.some.inj (of_decide_eq_true hf)
    obtain ⟨hother, r, q, hr, hname, -, hparent, hq, hroots⟩ :=
      lambda_record_of_parse (by decide +kernel) hparse hload howns.reaches
    obtain rfl := (hq 1).mp howns
    refine ⟨tree, table, _, r, hparse, hload, howns, rfl, hother, hr, hname, hparent, body, rfl, ?_⟩
    rcases hroots with ⟨_, _, rfl, hroots⟩ | ⟨_, _, rfl, hroots⟩ <;> exact hroots
  | _ => cases hlambda

end FunctionTable

end Bies
