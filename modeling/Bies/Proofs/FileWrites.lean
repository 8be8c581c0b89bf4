import Mathlib.Data.List.Basic
import Bies.Command.Files

/-!
# Writing a file

A path leads to at most one file. Writing to a path replaces what the file holds, or makes the file, and
keeps all other files; every path that leads elsewhere reads as before.
-/

namespace Bies.Files

/-! ## The files by their names -/

theorem lookup_replace (path p : AbsolutePath) (content : Content) (contents : List (AbsolutePath × Content)) :
    (contents.map fun (q, old) => (q, if q = path then content else old)).lookup p =
      (contents.lookup p).map fun old => if p = path then content else old := by
  induction contents with
  | nil => rfl
  | cons file rest ih =>
    obtain ⟨q, old⟩ := file
    rw [List.map_cons, List.lookup_cons, List.lookup_cons]
    by_cases h : p = q
    · subst h
      rw [beq_self_eq_true, Option.map_some]
    · rw [beq_false_of_ne h]
      exact ih

theorem get?_set (fs : Files) (path p : AbsolutePath) (content : Content) :
    (fs.set path content).get? p = if p = path then some content else fs.get? p := by
  unfold set
  split
  case isTrue h =>
    refine (lookup_replace path p content fs.contents).trans ?_
    split
    case isTrue hp =>
      obtain ⟨old, hold⟩ := Option.isSome_iff_exists.mp h
      rw [hp, show fs.contents.lookup path = some old from hold, Option.map_some]
    case isFalse hp => exact Option.map_id'
  case isFalse h =>
    refine List.lookup_append.trans ?_
    by_cases hp : p = path
    · rw [if_pos hp, hp, show fs.contents.lookup path = none from Option.not_isSome_iff_eq_none.mp h]
      exact List.lookup_cons_self
    · rw [if_neg hp, List.lookup_cons, beq_false_of_ne hp]
      exact Option.or_none

theorem here_set (fs : Files) (path : AbsolutePath) (content : Content) :
    (fs.set path content).here = fs.here := by
  unfold set
  split <;> rfl

/-! ## Directories -/

section
variable {fs : Files} {path : AbsolutePath}

theorem isDirectory_iff : fs.isDirectory path = true ↔
    (∃ d ∈ fs.here :: fs.directories, path <+: d) ∨
      ∃ file ∈ fs.contents, path.length < file.1.length ∧ path <+: file.1 := by
  simp only [isDirectory, Bool.or_eq_true, List.any_eq_true, List.isPrefixOf_iff_prefix, Bool.and_eq_true,
    decide_eq_true_eq]

theorem isDirectory_nil (fs : Files) : fs.isDirectory [] = true :=
  isDirectory_iff.mpr (.inl ⟨fs.here, List.mem_cons_self, List.nil_prefix⟩)

theorem isDirectory_here (fs : Files) : fs.isDirectory fs.here = true :=
  isDirectory_iff.mpr (.inl ⟨fs.here, List.mem_cons_self, List.prefix_rfl⟩)

theorem isDirectory_of_above {below : AbsolutePath} (h : path <+: below)
    (hbelow : fs.isDirectory below = true) : fs.isDirectory path = true := by
  obtain ⟨d, hd, hp⟩ | ⟨file, hfile, hlength, hp⟩ := isDirectory_iff.mp hbelow
  · exact isDirectory_iff.mpr (.inl ⟨d, hd, h.trans hp⟩)
  · exact isDirectory_iff.mpr (.inr ⟨file, hfile, Nat.lt_of_le_of_lt h.length_le hlength, h.trans hp⟩)

def Holds (fs : Files) (path : AbsolutePath) : Prop :=
  (fs.get? path).isSome ∨ fs.isDirectory path = false ∧ ∃ d name, fs.isDirectory d = true ∧ path = d ++ [name]

theorem isDirectory_set (h : fs.Holds path) (content : Content)
    (p : AbsolutePath) : (fs.set path content).isDirectory p = fs.isDirectory p := by
  unfold set
  split
  case isTrue =>
    simp only [isDirectory, List.any_map, Function.comp_def]
  case isFalse hnone =>
    obtain hsome | ⟨-, d, name, hd, rfl⟩ := h
    · exact absurd hsome hnone
    rw [Bool.eq_iff_iff]
    constructor
    · intro hp
      obtain hhere | ⟨file, hfile, hlength, hprefix⟩ := isDirectory_iff.mp hp
      · exact isDirectory_iff.mpr (.inl hhere)
      obtain hfile | hfile := List.mem_append.mp hfile
      · exact isDirectory_iff.mpr (.inr ⟨file, hfile, hlength, hprefix⟩)
      · -- Above the new file there are only the directories above its own.
        rw [List.mem_singleton.mp hfile] at hlength hprefix
        obtain heq | habove := List.prefix_concat_iff.mp hprefix
        · exact absurd (congrArg List.length heq) (Nat.ne_of_lt hlength)
        · exact isDirectory_of_above habove hd
    · intro hp
      obtain hhere | ⟨file, hfile, hrest⟩ := isDirectory_iff.mp hp
      · exact isDirectory_iff.mpr (.inl hhere)
      · exact isDirectory_iff.mpr (.inr ⟨file, List.mem_append_left _ hfile, hrest⟩)

/-! ## Where paths lead -/

def Location.file? : Except FileError Location → Option AbsolutePath
  | .ok (.file path _) | .ok (.vacant path) => some path
  | .ok .directory | .error _ => none

def Location.entry : Except FileError Location → Entry
  | .ok (.file _ (.text content)) => .text content
  | .ok (.file _ .data) => .unreadable .notText
  | .ok (.file _ .sink) => .text ""
  | .ok (.file _ .full) => .unreadable .noSpace
  | .ok .directory => .unreadable .isDirectory
  | .ok (.vacant _) | .error _ => .missing

def target? (fs : Files) (path : String) : Option AbsolutePath := Location.file? (fs.locate path)

theorem read_eq (fs : Files) (path : String) : fs.read path = Location.entry (fs.locate path) := by
  unfold read Location.entry
  rfl

def Location.Sound (fs : Files) : Except FileError Location → Prop
  | .ok (.file path content) => fs.get? path = some content
  | .ok (.vacant path) => fs.get? path = none ∧ fs.Holds path
  | .ok .directory | .error _ => True

theorem walk_sound {directory : AbsolutePath} (parts : List (List Char))
    (h : fs.isDirectory directory = true) : Location.Sound fs (fs.walk directory parts) := by
  induction parts generalizing directory with
  | nil => trivial
  | cons part rest ih =>
    rw [walk]
    split
    · exact ih h
    split
    · exact ih (isDirectory_of_above (List.dropLast_prefix _) h)
    split
    · trivial
    dsimp only
    split
    next content hget =>
      split
      · exact hget
      · trivial
    next hget =>
      split
      next hdir => exact ih hdir
      next hdir =>
      split
      · exact ⟨hget, .inr ⟨Bool.eq_false_iff.mpr hdir, directory, _, h, rfl⟩⟩
      split <;> trivial

end

theorem locate_sound (fs : Files) (path : String) : Location.Sound fs (fs.locate path) := by
  unfold locate
  dsimp only
  split
  · trivial
  split
  · trivial
  split
  · trivial
  split
  · exact walk_sound _ fs.isDirectory_nil
  · exact walk_sound _ fs.isDirectory_here

/-! ## Writing -/

/-- How a text at a target changes where a path leads. A way through the target fails as before, though
for another reason. -/
inductive Location.Changes (target : AbsolutePath) (text : String) :
    Except FileError Location → Except FileError Location → Prop
  | replaced (content : Content) :
    Changes target text (.ok (.file target content)) (.ok (.file target (.text text)))
  | made : Changes target text (.ok (.vacant target)) (.ok (.file target (.text text)))
  | failed (e e' : FileError) : Changes target text (.error e) (.error e')
  | kept {found : Except FileError Location} (h : Location.file? found ≠ some target) :
    Changes target text found found

theorem Location.Changes.entry {target : AbsolutePath} {text : String}
    {before after : Except FileError Location} (h : Changes target text before after) :
    Location.entry after =
      if Location.file? before = some target then .text text else Location.entry before := by
  cases h with
  | replaced content => exact (if_pos rfl).symm
  | made => exact (if_pos rfl).symm
  | failed e e' => rfl
  | kept h => exact (if_neg h).symm

section
variable {fs fs' : Files} {target : AbsolutePath} {text : String}
  (hget : ∀ p, fs'.get? p = if p = target then some (.text text) else fs.get? p)
  (hdir : ∀ p, fs'.isDirectory p = fs.isDirectory p) (htarget : fs.Holds target)

include hget hdir htarget in
theorem walk_changes (parts : List (List Char)) (directory : AbsolutePath) :
    Location.Changes target text (fs.walk directory parts) (fs'.walk directory parts) := by
  induction parts generalizing directory with
  | nil => exact .kept (Option.some_ne_none target).symm
  | cons part rest ih =>
    rw [walk, walk]
    split
    · exact ih _
    split
    · exact ih _
    split
    · exact .failed _ _
    dsimp only
    rw [hget, hdir]
    by_cases hnext : directory ++ [String.ofList part] = target
    · -- The way ends here or fails, before and after.
      rw [if_pos hnext, hnext]
      dsimp only
      split
      next content hcontent =>
        split
        · exact .replaced content
        · exact .failed _ _
      next hnone =>
        obtain hsome | ⟨hfree, -⟩ := htarget
        · rw [hnone] at hsome
          cases hsome
        rw [if_neg (Bool.eq_false_iff.mp hfree)]
        split
        · exact .made
        split <;> exact .failed _ _
    · rw [if_neg hnext]
      split
      next content hcontent =>
        split
        · exact .kept fun heq => hnext (Option.some.inj heq)
        · exact .failed _ _
      next hnone =>
        split
        · exact ih _
        split
        · exact .kept fun heq => hnext (Option.some.inj heq)
        split <;> exact .failed _ _

include hget hdir htarget in
theorem read_changes (hhere : fs'.here = fs.here) (path : String) :
    fs'.read path = if fs.target? path = some target then .text text else fs.read path := by
  have h : Location.Changes target text (fs.locate path) (fs'.locate path) := by
    unfold locate
    dsimp only
    split
    · exact .failed _ _
    split
    · exact .failed _ _
    split
    · exact .failed _ _
    rw [hhere]
    exact walk_changes hget hdir htarget _ _
  rw [read_eq, read_eq]
  exact h.entry

end

def Takes (fs : Files) (path : String) : Prop :=
  ∃ target, fs.target? path = some target ∧ fs.get? target ≠ some .full

/-- Nothing but the file to which a path leads changes, and that file is now the text. A device that
takes everything stays as it is. -/
inductive Puts (fs : Files) (path text : String) : Files → Prop
  | file {fs' : Files} {target : AbsolutePath} (leads : fs.target? path = some target)
    (plain : fs.get? target ∉ [some .sink, some .full])
    (contents : ∀ p, fs'.get? p = if p = target then some (.text text) else fs.get? p)
    (directories : ∀ p, fs'.isDirectory p = fs.isDirectory p)
    (reads : ∀ p, fs'.read p = if fs.target? p = some target then .text text else fs.read p) :
    Puts fs path text fs'
  | sink {target : AbsolutePath} (leads : fs.target? path = some target)
    (device : fs.get? target = some .sink) : Puts fs path text fs

section
variable {fs fs' : Files} {path : String}

theorem puts_set {text : String} {target : AbsolutePath}
    (leads : fs.target? path = some target) (plain : fs.get? target ∉ [some .sink, some .full])
    (htarget : fs.Holds target) : Puts fs path text (fs.set target (.text text)) :=
  .file leads plain (fs.get?_set target · _) (isDirectory_set htarget _)
    (read_changes (fs.get?_set target · _) (isDirectory_set htarget _) htarget (here_set ..))

theorem not_takes_of_target? (h : fs.target? path = none) :
    ¬ fs.Takes path := by
  rintro ⟨target, hleads, -⟩
  exact absurd (h.symm.trans hleads) (Option.some_ne_none target).symm

theorem write_cases (fs : Files) (path text : String) :
    (∃ fs', fs.write path text = .ok fs' ∧ Puts fs path text fs') ∨
      ∃ cause, fs.write path text = .error cause ∧ ¬ fs.Takes path := by
  have hsound := fs.locate_sound path
  unfold write
  cases hlocate : fs.locate path with
  | error e => exact .inr ⟨e, rfl, not_takes_of_target? (congrArg Location.file? hlocate)⟩
  | ok location =>
    rw [hlocate] at hsound
    have hleads : fs.target? path = Location.file? (.ok location) := congrArg Location.file? hlocate
    cases location with
    | directory => exact .inr ⟨.isDirectory, rfl, not_takes_of_target? hleads⟩
    | vacant target =>
      obtain ⟨hnone, hholds⟩ := hsound
      exact .inl ⟨_, rfl, puts_set hleads (by simp [hnone]) hholds⟩
    | file target content =>
      have hcontent : fs.get? target = some content := hsound
      have hholds : fs.Holds target := .inl (Option.isSome_of_eq_some hcontent)
      cases content with
      | text old => exact .inl ⟨_, rfl, puts_set hleads (by simp [hcontent]) hholds⟩
      | data => exact .inl ⟨_, rfl, puts_set hleads (by simp [hcontent]) hholds⟩
      | sink => exact .inl ⟨fs, rfl, .sink hleads hcontent⟩
      | full =>
        refine .inr ⟨.noSpace, rfl, ?_⟩
        rintro ⟨other, hother, hfull⟩
        rw [← Option.some.inj (hleads.symm.trans hother)] at hfull
        exact hfull hcontent

theorem Puts.read_of_ne {text other : String} (h : Puts fs path text fs')
    (hother : fs.target? other ≠ fs.target? path) : fs'.read other = fs.read other := by
  cases h with
  | sink leads device => rfl
  | file leads plain contents directories reads =>
    rw [reads, if_neg]
    exact fun heq => hother (heq.trans leads.symm)

theorem Puts.exists_frame {text : String} (h : Puts fs path text fs') :
    ∃ target, ∀ p, p ≠ target → fs'.get? p = fs.get? p := by
  cases h with
  | @sink target leads device => exact ⟨target, fun p _ => rfl⟩
  | @file fs' target leads plain contents directories reads =>
    exact ⟨target, fun p hp => (contents p).trans (if_neg hp)⟩

end

end Bies.Files
