import Bies.Text.Bytes

/-!
# Files

What the command needs of a file system, and a file system as a plain value: texts and devices by their
paths from the root, and the directory in which the command works. Directories are there because of
what lies in them.
-/

namespace Bies

/-- Why a file cannot be read or written. -/
inductive FileError where
  | notFound
  | notDirectory
  | isDirectory
  | noSpace
  | nameTooLong
  | nulInName
  | notText
  | other (text : String)
deriving DecidableEq, Repr

def FileError.message : FileError → String
  | .notFound => "No such file or directory (os error 2)"
  | .notDirectory => "Not a directory (os error 20)"
  | .isDirectory => "Is a directory (os error 21)"
  | .noSpace => "No space left on device (os error 28)"
  | .nameTooLong => "File name too long (os error 36)"
  | .nulInName => "file name contained an unexpected NUL byte"
  | .notText => "stream did not contain valid UTF-8"
  | .other text => text

/-- What is found at a path. -/
inductive Entry where
  | missing
  /-- Something whose text cannot be had, such as a directory. -/
  | unreadable (cause : FileError)
  | text (content : String)
deriving DecidableEq, Repr

/-- Reading and writing files. -/
structure FileAccess (m : Type → Type) where
  read : String → m Entry
  write : String → String → m (Except FileError Unit)

/-- The names on the way from the root to a file or directory. -/
abbrev AbsolutePath := List String

inductive Content where
  | text (content : String)
  /-- Bytes that are no text. -/
  | data
  /-- A device that holds nothing and takes everything. -/
  | sink
  /-- A device that takes nothing. -/
  | full
deriving DecidableEq, Repr

structure Files where
  /-- The working directory. -/
  here : AbsolutePath
  contents : List (AbsolutePath × Content)
  /-- Directories in which nothing need lie. -/
  directories : List AbsolutePath := []

namespace Files

def get? (fs : Files) (path : AbsolutePath) : Option Content := fs.contents.lookup path

/-- The working directory and the other known ones are directories, and so is what lies above a
directory or a file. -/
def isDirectory (fs : Files) (path : AbsolutePath) : Bool :=
  (fs.here :: fs.directories).any path.isPrefixOf
    || fs.contents.any fun (file, _) => path.length < file.length && path.isPrefixOf file

def set (fs : Files) (path : AbsolutePath) (content : Content) : Files :=
  if (fs.get? path).isSome then
    { fs with contents := fs.contents.map fun (p, old) => (p, if p = path then content else old) }
  else { fs with contents := fs.contents ++ [(path, content)] }

/-- Where a path leads. -/
inductive Location where
  | file (path : AbsolutePath) (content : Content)
  | directory
  /-- Nothing is there, but a file may be put there. -/
  | vacant (path : AbsolutePath)
deriving DecidableEq, Repr

/-- The most bytes that a name may have. -/
def maxNameBytes : Nat := 255

/-- The most bytes that a path may have. -/
def maxPathBytes : Nat := 4095

/-- Goes on from a directory by the parts of a path. The directory above the root is the root. -/
def walk (fs : Files) (directory : AbsolutePath) : List (List Char) → Except FileError Location
  | [] => .ok .directory
  | part :: rest =>
    if part = [] ∨ part = ['.'] then walk fs directory rest
    else if part = ['.', '.'] then walk fs directory.dropLast rest
    else if maxNameBytes < byteLength part then .error .nameTooLong
    else
      let next := directory ++ [.ofList part]
      match fs.get? next with
      | some content => if rest = [] then .ok (.file next content) else .error .notDirectory
      | none =>
        if fs.isDirectory next then walk fs next rest
        else if rest = [] then .ok (.vacant next)
        else if rest.all (· = []) then .error .isDirectory
        else .error .notFound

/-- The parts of a path, which slashes separate. -/
def parts : List Char → List (List Char)
  | [] => [[]]
  | c :: rest =>
    if c = '/' then [] :: parts rest
    else
      match parts rest with
      | [] => [[c]]
      | part :: more => (c :: part) :: more

/-- Where a path leads, from the root if it starts with a slash, else from the working directory. -/
def locate (fs : Files) (path : String) : Except FileError Location :=
  let path := path.toList
  if '\x00' ∈ path then .error .nulInName
  else if path = [] then .error .notFound
  else if maxPathBytes < byteLength path then .error .nameTooLong
  else fs.walk (if path.head? = some '/' then [] else fs.here) (parts path)

def read (fs : Files) (path : String) : Entry :=
  match fs.locate path with
  | .ok (.file _ (.text content)) => .text content
  | .ok (.file _ .data) => .unreadable .notText
  | .ok (.file _ .sink) => .text ""
  | .ok (.file _ .full) => .unreadable .noSpace
  | .ok .directory => .unreadable .isDirectory
  | .ok (.vacant _) | .error _ => .missing

def write (fs : Files) (path : String) (text : String) : Except FileError Files :=
  match fs.locate path with
  | .ok (.file path (.text _)) | .ok (.file path .data) | .ok (.vacant path) =>
    .ok (fs.set path (.text text))
  | .ok (.file _ .sink) => .ok fs
  | .ok (.file _ .full) => .error .noSpace
  | .ok .directory => .error .isDirectory
  | .error e => .error e

/-- The files as something to read and write. -/
def access : FileAccess (StateM Files) where
  read path := return (← get).read path
  write path text := do
    match (← get).write path text with
    | .ok fs =>
      MonadStateOf.set fs
      return .ok ()
    | .error e => return .error e

end Files

/-- The path with another extension. The extension of a file starts at the last point of its name, unless
the name has no other character before it. If only a point would be left of the name, the path leads to
the directory above instead, which has no extension. -/
def withExtension (path : String) (extension : String) : String :=
  let reversed := path.toList.reverse
  let name := reversed.takeWhile (· ≠ '/')
  let directory := reversed.dropWhile (· ≠ '/')
  let stem := match name.dropWhile (· ≠ '.') with
    | [] | [_] => name
    | _ :: stem => stem
  if name = [] ∨ name = ['.'] ∨ name = ['.', '.'] then path
  else if stem = ['.'] then .ofList ((['.', '.'] ++ directory).reverse)
  else .ofList ((stem ++ directory).reverse ++ '.' :: extension.toList)

end Bies
