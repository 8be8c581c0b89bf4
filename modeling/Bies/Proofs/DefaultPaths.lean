import Bies.Proofs.AssemblyTexts
import Bies.Proofs.CommandRuns
import Bies.Proofs.Framing
import Bies.Proofs.MainProgram
import Bies.Proofs.Relayout

/-!
# The paths used by default

Without other instructions the result and the errors go to paths that the command makes from that of the source, by
another extension. They lead to the source itself if and only if it has that extension already. So a run leaves its
source as it is, unless the source has the extension of results and compiles, or that of errors and does not.
-/

namespace Bies

/-! ## Paths with the same directory -/

def IsFolder (directory : List Char) : Prop := directory = [] ∨ ∃ d, directory = d ++ ['/']

/-- The name at the end of the path is more than a point, and `extension` stands behind its last point. -/
def HasExtension (path extension : String) : Prop :=
  ∃ directory stem, path.toList = directory ++ (stem ++ '.' :: extension.toList) ∧ IsFolder directory ∧
    '/' ∉ stem ∧
    stem ≠ [] ∧ stem ≠ ['.']

theorem exists_folder (path : List Char) :
    ∃ directory name, path = directory ++ name ∧ IsFolder directory ∧ '/' ∉ name := by
  induction path with
  | nil => exact ⟨[], [], rfl, .inl rfl, List.not_mem_nil⟩
  | cons c path ih =>
    obtain ⟨directory, name, rfl, hdirectory, hname⟩ := ih
    by_cases hc : c = '/'
    · rcases hdirectory with rfl | ⟨d, rfl⟩
      · exact ⟨['/'], name, by rw [hc]; rfl, .inr ⟨[], rfl⟩, hname⟩
      · exact ⟨c :: (d ++ ['/']), name, rfl, .inr ⟨c :: d, rfl⟩, hname⟩
    · rcases hdirectory with rfl | ⟨d, rfl⟩
      · exact ⟨[], c :: name, rfl, .inl rfl, by simp [Ne.symm hc, hname]⟩
      · exact ⟨c :: (d ++ ['/']), name, rfl, .inr ⟨c :: d, rfl⟩, hname⟩

namespace Files

theorem parts_ne_nil (path : List Char) : parts path ≠ [] := by
  cases path with
  | nil => simp [parts]
  | cons c path =>
    rw [parts]
    split
    · simp
    · split <;> simp

theorem parts_slash (a b : List Char) : parts (a ++ '/' :: b) = parts a ++ parts b := by
  induction a with
  | nil => simp [parts]
  | cons c a ih =>
    rw [List.cons_append, parts, parts, ih]
    by_cases hc : c = '/'
    · simp [hc]
    · rw [if_neg hc, if_neg hc]
      cases h : parts a with
      | nil => exact absurd h (parts_ne_nil a)
      | cons part more => rfl

theorem parts_name {name : List Char} (h : '/' ∉ name) : parts name = [name] := by
  induction name with
  | nil => rfl
  | cons c name ih =>
    simp only [List.mem_cons, not_or] at h
    rw [parts, if_neg (Ne.symm h.1), ih h.2]

theorem exists_parts {directory : List Char} (h : IsFolder directory) :
    ∃ front, ∀ name, '/' ∉ name → parts (directory ++ name) = front ++ [name] := by
  rcases h with rfl | ⟨d, rfl⟩
  · exact ⟨[], fun name hname => parts_name hname⟩
  · refine ⟨parts d, fun name hname => ?_⟩
    rw [List.append_assoc, List.singleton_append, parts_slash, parts_name hname]

theorem walk_part (fs : Files) (d : AbsolutePath) (part : List Char) :
    (∃ d', ∀ rest, rest ≠ [] → fs.walk d (part :: rest) = fs.walk d' rest) ∨
      ∀ rest, rest ≠ [] → Location.file? (fs.walk d (part :: rest)) = none := by
  by_cases hhere : part = [] ∨ part = ['.']
  · exact .inl ⟨d, fun rest _ => by rw [walk, if_pos hhere]⟩
  by_cases habove : part = ['.', '.']
  · exact .inl ⟨d.dropLast, fun rest _ => by rw [walk, if_neg hhere, if_pos habove]⟩
  by_cases hlong : maxNameBytes < byteLength part
  · exact .inr fun rest _ => by rw [walk, if_neg hhere, if_neg habove, if_pos hlong]; rfl
  cases hget : fs.get? (d ++ [String.ofList part]) with
  | some content =>
    refine .inr fun rest hrest => ?_
    simp only [walk, hhere, habove, hlong, hget, hrest, if_false]
    rfl
  | none =>
    by_cases hdir : fs.isDirectory (d ++ [String.ofList part]) = true
    · refine .inl ⟨d ++ [String.ofList part], fun rest _ => ?_⟩
      simp only [walk, hhere, habove, hlong, hget, hdir, if_false, if_true]
    · refine .inr fun rest hrest => ?_
      simp only [walk, hhere, habove, hlong, hget, hdir, hrest, Bool.false_eq_true, if_false]
      split <;> rfl

theorem walk_front (fs : Files) (front : List (List Char)) (d : AbsolutePath) :
    (∃ d', ∀ last, fs.walk d (front ++ [last]) = fs.walk d' [last]) ∨
      ∀ last, Location.file? (fs.walk d (front ++ [last])) = none := by
  induction front generalizing d with
  | nil => exact .inl ⟨d, fun _ => rfl⟩
  | cons part rest ih =>
    have hrest : ∀ last, rest ++ [last] ≠ [] := fun last => by simp
    rcases fs.walk_part d part with ⟨d', hd'⟩ | hnone
    · simpa only [List.cons_append, hd' _ (hrest _)] using ih d'
    · exact .inr fun last => hnone _ (hrest last)

def IsName (name : List Char) : Prop := name ≠ [] ∧ name ≠ ['.'] ∧ name ≠ ['.', '.']

variable {fs : Files}

theorem file?_walk_name {d p : AbsolutePath} {name : List Char} (h : Location.file? (fs.walk d [name]) = some p) :
    p = d ++ [.ofList name] ∧ IsName name := by
  simp only [walk, if_true] at h
  by_cases hhere : name = [] ∨ name = ['.']
  · rw [if_pos hhere] at h
    cases h
  by_cases habove : name = ['.', '.']
  · rw [if_neg hhere, if_pos habove] at h
    cases h
  refine ⟨?_, not_or.mp hhere |>.1, not_or.mp hhere |>.2, habove⟩
  rw [if_neg hhere, if_neg habove] at h
  split at h
  · cases h
  · split at h
    · exact (Option.some.inj h).symm
    · split at h
      · cases h
      · exact (Option.some.inj h).symm

theorem file?_walk_of_target? {path : String} {p : AbsolutePath} (h : fs.target? path = some p) :
    Location.file? (fs.walk (if path.toList.head? = some '/' then [] else fs.here) (parts path.toList)) = some p := by
  unfold target? locate at h
  dsimp only at h
  split at h
  · cases h
  split at h
  · cases h
  split at h
  · cases h
  exact h

section
variable {directory name : List Char}

theorem head?_folder (h : IsFolder directory) (hname : '/' ∉ name) :
    (directory ++ name).head? = some '/' ↔ directory.head? = some '/' := by
  rcases h with rfl | ⟨d, rfl⟩
  · simpa using fun h => hname (List.mem_of_head? h)
  · cases d <;> rfl

theorem exists_target?_folder (fs : Files) (hdirectory : IsFolder directory) :
    ∃ d, ∀ {name : List Char} {p : AbsolutePath}, '/' ∉ name →
    fs.target? (.ofList (directory ++ name)) = some p → p = d ++ [.ofList name] ∧ IsName name := by
  obtain ⟨front, hfront⟩ := exists_parts hdirectory
  rcases fs.walk_front front (if directory.head? = some '/' then [] else fs.here) with ⟨d, hd⟩ | hnone
  · refine ⟨d, fun {name p} hname h => ?_⟩
    have h := file?_walk_of_target? h
    simp only [String.toList_ofList, head?_folder hdirectory hname, hfront name hname, hd] at h
    exact file?_walk_name h
  · refine ⟨[], fun {name p} hname h => ?_⟩
    have h := file?_walk_of_target? h
    simp only [String.toList_ofList, head?_folder hdirectory hname, hfront name hname, hnone] at h
    cases h

end

end Files

/-! ## Other extensions -/

section
variable {directory name : List Char} {extension : String}

theorem takeWhile_folder (hdirectory : IsFolder directory) (hname : '/' ∉ name) :
    (directory ++ name).reverse.takeWhile (· ≠ '/') = name.reverse ∧
      (directory ++ name).reverse.dropWhile (· ≠ '/') = directory.reverse := by
  have hall : ∀ c ∈ name.reverse, decide (c ≠ '/') = true := by
    intro c hc
    exact decide_eq_true fun h => hname (h ▸ List.mem_reverse.mp hc)
  rw [List.reverse_append, List.takeWhile_append_of_pos hall, List.dropWhile_append_of_pos hall]
  rcases hdirectory with rfl | ⟨d, rfl⟩ <;> simp

theorem dropWhile_point {stem rest : List Char} (hrest : '.' ∉ rest) :
    (stem ++ '.' :: rest).reverse.dropWhile (· ≠ '.') = '.' :: stem.reverse := by
  have hall : ∀ c ∈ rest.reverse, decide (c ≠ '.') = true := by
    intro c hc
    exact decide_eq_true fun h => hrest (h ▸ List.mem_reverse.mp hc)
  rw [List.reverse_append, List.reverse_cons, List.append_assoc, List.dropWhile_append_of_pos hall]
  simp

theorem exists_withExtension (hdirectory : IsFolder directory) (hname : '/' ∉ name) (hfile : Files.IsName name)
    (hpoint : '.' ∉ extension.toList) (hslash : '/' ∉ extension.toList) :
    ∃ name', withExtension (.ofList (directory ++ name)) extension = .ofList (directory ++ name') ∧ '/' ∉ name' ∧
      (name' = name ↔ ∃ stem, name = stem ++ '.' :: extension.toList ∧ stem ≠ [] ∧ stem ≠ ['.']) := by
  obtain ⟨htake, hdrop⟩ := takeWhile_folder hdirectory hname
  have hsolid : ¬ (name.reverse = [] ∨ name.reverse = ['.'] ∨ name.reverse = ['.', '.']) := by
    simpa [List.reverse_eq_iff, not_or, Files.IsName] using hfile
  unfold withExtension
  simp only [String.toList_ofList, htake, hdrop, if_neg hsolid]
  have hlong : name ++ '.' :: extension.toList ≠ name := by simp
  have hplain : '/' ∉ name ++ '.' :: extension.toList := by simp [hname, hslash]
  cases hlast : name.reverse.dropWhile (· ≠ '.') with
  | nil =>
    refine ⟨name ++ '.' :: extension.toList, ?_, hplain, iff_of_false hlong ?_⟩
    · rw [if_neg fun h => hsolid (.inr (.inl h))]
      simp
    · rintro ⟨stem, rfl, -⟩
      rw [dropWhile_point hpoint] at hlast
      cases hlast
  | cons c rest =>
    cases rest with
    | nil =>
      refine ⟨name ++ '.' :: extension.toList, ?_, hplain, iff_of_false hlong ?_⟩
      · rw [if_neg fun h => hsolid (.inr (.inl h))]
        simp
      · rintro ⟨stem, rfl, hstem, -⟩
        rw [dropWhile_point hpoint] at hlast
        exact hstem (List.reverse_eq_nil_iff.mp (List.cons.inj hlast).2)
    | cons d rest =>
      have hstem : ∀ stem, name = stem ++ '.' :: extension.toList → stem.reverse = d :: rest := by
        rintro stem rfl
        rw [dropWhile_point hpoint] at hlast
        exact (List.cons.inj hlast).2
      by_cases hdot : d :: rest = ['.']
      · refine ⟨['.', '.'], by simp [hdot], by simp, iff_of_false (fun h => hfile.2.2 h.symm) ?_⟩
        rintro ⟨stem, hsplit, -, hne⟩
        exact hne (List.reverse_eq_iff.mp ((hstem stem hsplit).trans hdot))
      · refine ⟨(d :: rest).reverse ++ '.' :: extension.toList, by simp [hdot], ?_, ?_⟩
        · have hsub : ∀ x ∈ d :: rest, x ∈ name := fun x hx =>
            List.mem_reverse.mp ((List.dropWhile_suffix _).subset (hlast ▸ List.mem_cons_of_mem c hx))
          simp only [List.mem_append, List.mem_reverse, not_or]
          exact ⟨fun h => hname (hsub _ h), by simp [hslash]⟩
        · constructor
          · intro h
            exact ⟨_, h.symm, by simp, fun heq => hdot (List.reverse_eq_iff.mp heq)⟩
          · rintro ⟨stem, hsplit, -⟩
            rw [← hstem stem hsplit, List.reverse_reverse, ← hsplit]

end

namespace Files

variable {fs : Files} {path extension : String} {p : AbsolutePath}

theorem withExtension_eq_self (h : HasExtension path extension) (hpoint : '.' ∉ extension.toList)
    (hslash : '/' ∉ extension.toList) : withExtension path extension = path := by
  obtain ⟨directory, stem, hpath, hdirectory, hstem, hne, hdot⟩ := h
  have hfile : IsName (stem ++ '.' :: extension.toList) := by
    refine ⟨by simp, fun h => ?_, fun h => ?_⟩
    · cases stem <;> simp_all
    · cases stem with
      | nil => exact hne rfl
      | cons c stem => cases stem <;> simp_all
  obtain ⟨name', hwith, -, hiff⟩ := exists_withExtension hdirectory (by simp [hstem, hslash]) hfile hpoint hslash
  rw [hiff.mpr ⟨stem, rfl, hne, hdot⟩, ← hpath, String.ofList_toList] at hwith
  exact hwith

theorem target?_withExtension (h : fs.target? path = some p) (hpoint : '.' ∉ extension.toList)
    (hslash : '/' ∉ extension.toList) :
    fs.target? (withExtension path extension) = some p ↔ HasExtension path extension := by
  constructor
  · intro hwith
    obtain ⟨directory, name, hpath, hdirectory, hname⟩ := exists_folder path.toList
    obtain ⟨d, hd⟩ := fs.exists_target?_folder hdirectory
    rw [← String.ofList_toList (s := path), hpath] at h hwith
    obtain ⟨hp, hfile⟩ := hd hname h
    obtain ⟨name', heq, hname', hiff⟩ := exists_withExtension hdirectory hname hfile hpoint hslash
    rw [heq] at hwith
    obtain ⟨hp', -⟩ := hd hname' hwith
    obtain ⟨stem, rfl, hne, hdot⟩ := hiff.mp (String.ofList_inj.mp (by simpa using hp'.symm.trans hp))
    exact ⟨directory, stem, hpath, hdirectory, fun hmem => hname (List.mem_append_left _ hmem), hne, hdot⟩
  · intro hext
    rw [withExtension_eq_self hext hpoint hslash, h]

end Files

/-! ## Assembly is no source -/

def Phrase.isSignless : Phrase → Bool
  | .operator texts => !texts.contains "$"
  | .list p _ | .more p | .sequence p _ => p.isSignless
  | _ => true

theorem Derives.text_ne {p : Phrase} {us rest : List Token} {ts : List Tree} (h : Derives p us ts rest)
    (hp : p.isSignless = true) : ∀ t ∈ us, t.kind = .punct → t.text ≠ "$" := by
  induction h with
  | @operator texts text t _ htext ht =>
    simp only [Token.isSymbol, Bool.and_eq_true, beq_iff_eq] at ht
    rintro u hu - hsign
    rw [List.mem_singleton.mp hu, ht.2] at hsign
    simp [Phrase.isSignless, ← hsign, htext] at hp
  | _ =>
    simp_all [Phrase.isSignless, Token.isSymbol, or_imp, leftBrace, rightBrace, Parser.comparisonOperators,
      Parser.additiveOperators, Parser.multiplicativeOperators]

theorem Tree.parse_sign (cs : List Char) (tree : Tree) : Tree.parse ('$' :: cs) ≠ .ok tree := by
  intro h
  obtain ⟨ts, -, hderives⟩ := derives_of_parse h
  have hsplit : Lexeme.split '$' cs = ⟨.punct, ['$'], cs⟩ :=
    Lexeme.split_single ⟨by decide, by decide, by decide +kernel⟩ (fun h => by cases h) fun d _ => by simp [isPair]
  have hscan := Token.scanFrom_token (by decide +kernel) hsplit 0
  rw [Token.scan, hscan, List.filter_cons_of_pos (by rfl)] at hderives
  exact hderives.text_ne rfl _ List.mem_cons_self rfl rfl

theorem Assembly.render_ne_source {options : Options} {source : String} {assembly : Assembly}
    (h : (compile options source.toList).result = .ok assembly) : assembly.render ≠ source := by
  obtain ⟨tree, table, hparse, hload, hlower⟩ := compile_eq_ok h
  obtain ⟨sequence, hmain⟩ := FunctionTable.exists_main_of_ofProgram hload
  obtain ⟨last, -, hfunctions⟩ := Assembly.exists_of_ofTable hlower
  have hframes := Lowering.lowerFunctions_frames table options table.records _ _ _ hfunctions
  have hsome : 0 < assembly.functions.length := hframes.length_eq ▸ (List.getElem?_eq_some_iff.mp hmain).1
  obtain ⟨f, fs, hfs⟩ := List.exists_cons_of_length_pos hsome
  rintro rfl
  rw [toList_render, lines, hfs, List.flatMap_cons, fileText_append, FunctionCode.fileText_lines_append] at hparse
  exact Tree.parse_sign _ tree hparse

/-! ## What becomes of the source -/

def Files.Stores (fs : Files) (path text : String) : Prop := ∃ p, fs.locate path = .ok (.file p (.text text))

namespace Files

variable {fs fs' : Files} {path extension text source : String}

theorem Stores.target? (h : fs.Stores path source) :
    ∃ p, fs.target? path = some p ∧ fs.get? p = some (.text source) := by
  obtain ⟨p, hp⟩ := h
  have hsound := fs.locate_sound path
  rw [hp] at hsound
  exact ⟨p, congrArg Location.file? hp, hsound⟩

theorem Stores.read (h : fs.Stores path source) : fs.read path = .text source := by
  obtain ⟨p, hp⟩ := h
  rw [read_eq, hp]
  rfl

theorem stores_of_read {p : AbsolutePath} (h : fs.read path = .text source) (hp : fs.target? path = some p)
    (hsink : fs.get? p ≠ some .sink) : fs.Stores path source := by
  have hsound := fs.locate_sound path
  rw [read_eq] at h
  unfold Files.target? at hp
  cases hlocate : fs.locate path with
  | error e =>
    rw [hlocate] at hp
    cases hp
  | ok location =>
    rw [hlocate] at h hp hsound
    cases location with
    | directory | vacant => cases h
    | file q content =>
      obtain rfl := Option.some.inj hp
      cases content with
      | text old =>
        cases h
        exact ⟨q, hlocate⟩
      | sink => exact absurd hsound hsink
      | data | full => cases h

section
variable (hpoint : '.' ∉ extension.toList) (hslash : '/' ∉ extension.toList)
include hpoint hslash

theorem takes_withExtension (h : fs.Stores path source) (hext : HasExtension path extension) :
    fs.Takes (withExtension path extension) := by
  obtain ⟨p, hp, hget⟩ := h.target?
  exact ⟨p, (target?_withExtension hp hpoint hslash).mpr hext, by simp [hget]⟩

theorem Puts.read_source_iff (h : fs.Puts (withExtension path extension) text fs')
    (found : fs.read path = .text source) :
    fs'.read path = fs.read path ↔ ¬ (fs.Stores path source ∧ HasExtension path extension ∧ text ≠ source) := by
  constructor
  · rintro hkept ⟨hstores, hext, hne⟩
    obtain ⟨p, hp, hget⟩ := hstores.target?
    have hwith := (target?_withExtension hp hpoint hslash).mpr hext
    cases h with
    | sink leads device =>
      obtain rfl := Option.some.inj (hwith.symm.trans leads)
      cases hget.symm.trans device
    | file leads plain contents directories reads =>
      obtain rfl := Option.some.inj (hwith.symm.trans leads)
      rw [reads, if_pos hp, found] at hkept
      exact hne (Entry.text.inj hkept)
  · intro hkept
    by_cases heq : fs.target? path = fs.target? (withExtension path extension)
    · cases h with
      | sink leads device => rfl
      | file leads plain contents directories reads =>
        simp only [List.mem_cons, not_or] at plain
        have hp := heq.trans leads
        have hstores := stores_of_read found hp plain.1
        have hext := (target?_withExtension hp hpoint hslash).mp leads
        by_cases htext : text = source
        · rw [reads, if_pos hp, found, htext]
        · exact absurd ⟨hstores, hext, htext⟩ hkept
    · exact h.read_of_ne heq

end

end Files

namespace Command

/-- The source stands where the command puts the result of a program that compiles, or the error of one that does not. -/
inductive Overwrites (fs : Files) (a : Arguments) (config : Config) : Prop
  | result {source : String} {assembly : Assembly} (stored : fs.Stores a.file source)
    (result : (compile config.compiler source.toList).result = .ok assembly) (named : HasExtension a.file "basm") :
    Overwrites fs a config
  | error {source : String} {e : CompileError} (stored : fs.Stores a.file source)
    (result : (compile config.compiler source.toList).result = .error e) (named : HasExtension a.file "err")
    (differs : errorText ((a.trace <|> config.trace).getD 0 = 1) a.file source.toList e ≠ source) :
    Overwrites fs a config

section
variable {args : List String} {fs fs' : Files} {exit : UInt32} {a : Arguments}

theorem exists_overwrites_iff {config : Config} (h : Configured fs a.useConfig config) :
    (∃ config, Configured fs a.useConfig config ∧ Overwrites fs a config) ↔ Overwrites fs a config := by
  constructor
  · rintro ⟨config', h', hover⟩
    exact h.unique h' ▸ hover
  · exact fun hover => ⟨config, h, hover⟩

theorem Overwrites.stores {config : Config} (h : Overwrites fs a config) : ∃ source, fs.Stores a.file source := by
  cases h with
  | result stored | error stored => exact ⟨_, stored⟩

section
variable {config : Config} {source : String} (found : fs.read a.file = .text source)
include found

theorem overwrites_iff_of_ok {assembly : Assembly}
    (hok : (compile config.compiler source.toList).result = .ok assembly) :
    Overwrites fs a config ↔ fs.Stores a.file source ∧ HasExtension a.file "basm" ∧
      assembly.render ≠ source := by
  constructor
  · intro h
    obtain ⟨source', hstored⟩ := h.stores
    obtain rfl := Entry.text.inj (found.symm.trans hstored.read)
    cases h with
    | result _ _ named => exact ⟨hstored, named, Assembly.render_ne_source hok⟩
    | error stored result =>
      obtain rfl := Entry.text.inj (found.symm.trans stored.read)
      cases hok.symm.trans result
  · rintro ⟨hstored, hnamed, -⟩
    exact .result hstored hok hnamed

theorem overwrites_iff_of_error {e : CompileError} (herror : (compile config.compiler source.toList).result = .error e) :
    Overwrites fs a config ↔ fs.Stores a.file source ∧ HasExtension a.file "err" ∧
      errorText ((a.trace <|> config.trace).getD 0 = 1) a.file source.toList e ≠ source := by
  constructor
  · intro h
    cases h with
    | result stored result =>
      obtain rfl := Entry.text.inj (found.symm.trans stored.read)
      cases herror.symm.trans result
    | error stored result named differs =>
      obtain rfl := Entry.text.inj (found.symm.trans stored.read)
      cases herror.symm.trans result
      exact ⟨stored, named, differs⟩
  · rintro ⟨hstored, hnamed, hdiffers⟩
    exact .error hstored herror hnamed hdiffers

end

theorem Ending.read_source_iff (h : Ending args fs exit fs') (hrequest : Request.ofArguments args = .compile a)
    (hout : a.out = none) (herr : a.err = none)
    (hconfig : ∀ config, Configured fs a.useConfig config → config.outfile = none ∧ config.errfile = none) :
    fs'.read a.file = fs.read a.file ↔ ¬ ∃ config, Configured fs a.useConfig config ∧ Overwrites fs a config := by
  have hsame : ∀ {a' : Arguments}, Request.ofArguments args = .compile a' → a' = a := fun h =>
    Request.compile.inj (h.symm.trans hrequest)
  have houtPath : ∀ {config}, Configured fs a.useConfig config → outPath a config = withExtension a.file "basm" :=
    fun h => by
    simp [outPath, hout, (hconfig _ h).1]
  have herrPath : ∀ {config}, Configured fs a.useConfig config → errPath a config = withExtension a.file "err" :=
    fun h => by
    simp [errPath, herr, (hconfig _ h).2]
  cases h with
  | informed request => rcases request with h | h <;> cases h.symm.trans hrequest
  | misused request => cases request.symm.trans hrequest
  | unconfigured request unusable =>
    obtain rfl := hsame request
    exact iff_of_true rfl fun ⟨config, hconfigured, _⟩ => unusable config hconfigured
  | unreadable asks unreadable =>
    obtain rfl := hsame asks.request
    rw [exists_overwrites_iff asks.configured]
    refine iff_of_true rfl fun hover => ?_
    obtain ⟨source, hstored⟩ := hover.stores
    exact unreadable source hstored.read
  | compiled asks found result written =>
    obtain rfl := hsame asks.request
    rw [houtPath asks.configured] at written
    rw [exists_overwrites_iff asks.configured, overwrites_iff_of_ok found result]
    exact written.read_source_iff (by decide) (by decide) found
  | unsaved asks found result unwritten =>
    obtain rfl := hsame asks.request
    rw [houtPath asks.configured] at unwritten
    rw [exists_overwrites_iff asks.configured, overwrites_iff_of_ok found result]
    exact iff_of_true rfl fun ⟨hstored, hnamed, _⟩ =>
      unwritten (Files.takes_withExtension (by decide) (by decide) hstored hnamed)
  | rejected asks found result written =>
    obtain rfl := hsame asks.request
    rw [herrPath asks.configured] at written
    rw [exists_overwrites_iff asks.configured, overwrites_iff_of_error found result]
    exact written.read_source_iff (by decide) (by decide) found
  | unreported asks found result unwritten =>
    obtain rfl := hsame asks.request
    rw [herrPath asks.configured] at unwritten
    rw [exists_overwrites_iff asks.configured, overwrites_iff_of_error found result]
    exact iff_of_true rfl fun ⟨hstored, hnamed, _⟩ =>
      unwritten (Files.takes_withExtension (by decide) (by decide) hstored hnamed)

end

/-- A run that is not told where to write leaves its source as it is, unless the source has the extension of the
file that the run writes. -/
theorem run_keeps_source_iff {args : List String} {fs : Files} {a : Arguments}
    (hrequest : Request.ofArguments args = .compile a)
    (hout : a.out = none) (herr : a.err = none)
    (hconfig : ∀ config, Configured fs a.useConfig config → config.outfile = none ∧ config.errfile = none) :
    ((run Files.access args).run fs).2.read a.file = fs.read a.file ↔
      ¬ ∃ config, Configured fs a.useConfig config ∧ Overwrites fs a config := by
  obtain ⟨report, fs', hrun, hending⟩ := ending_run args fs
  rw [hrun]
  exact hending.read_source_iff hrequest hout herr hconfig

def hiddenFiles : Files where
  here := ["w"]
  contents := [(["w", ".basm"], .text "print(1)")]

theorem run_keeps_hiddenFiles : Request.ofArguments [".basm"] = .compile { file := ".basm" } ∧
    (∀ config, Configured hiddenFiles none config → config = {}) ∧
    ((run Files.access [".basm"]).run hiddenFiles).2.read ".basm" = .text "print(1)" := by
  have hmissing : hiddenFiles.read defaultConfig = .missing := by decide +kernel
  have hconfig : ∀ config, Configured hiddenFiles none config → config = {} :=
    fun config h => h.unique (.absent hmissing)
  have hrequest : Request.ofArguments [".basm"] = .compile { file := ".basm" } := by decide +kernel
  have hkept := (run_keeps_source_iff hrequest rfl rfl fun config h => hconfig config h ▸ ⟨rfl, rfl⟩).mpr
  refine ⟨hrequest, hconfig, hkept ?_⟩
  rintro ⟨config, -, hover⟩
  cases hover with
  | result _ _ named =>
    obtain ⟨directory, stem, hpath, -, -, hne, -⟩ := named
    have hlength := congrArg List.length hpath
    simp at hlength
    exact hne (List.length_eq_zero_iff.mp (by omega))
  | error _ _ named =>
    obtain ⟨directory, stem, hpath, -⟩ := named
    have hlast := congrArg List.getLast? hpath
    simp at hlast

def assemblyFiles : Files where
  here := ["w"]
  contents := [(["w", "a.basm"], .text "print(1)")]

/-- The result takes the place of the source. -/
theorem not_keeps_assemblyFiles : Request.ofArguments ["a.basm"] = .compile { file := "a.basm" } ∧
    assemblyFiles.read defaultConfig = .missing ∧
    ((run Files.access ["a.basm"]).run assemblyFiles).2.read "a.basm" ≠ assemblyFiles.read "a.basm" := by
  decide +kernel

end Command

end Bies
