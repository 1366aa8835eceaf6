/-!
# Files and their paths

What a program can read: a tree of directories with texts at its leaves, seen from a working
directory.  A path is followed step by step, from the working directory or, when it begins with a
slash, from the top of the tree.  A step leads down to the entry of its name, except that an empty
step and a single dot stay and two dots lead up; every step needs a directory to start from, so that
a slash after the name of a file leads nowhere.

* `FileError`: why a path leads to no text.
* `FileTree`: a file with its text, or a directory with its entries.
* `FileTree.Place.read`: the text that a path leads to.
-/

namespace ScriptTrace

/-- Why a file cannot be read. -/
inductive FileError where
  | notFound
  | permissionDenied
  /-- A step of the path starts from something that is not a directory. -/
  | notDirectory
  | isDirectory
  /-- The path or one of its steps has too many bytes. -/
  | nameTooLong
  /-- The bytes of the file are not those of a text. -/
  | notText
  /-- Any other reason, in words. -/
  | other (message : String)
  deriving DecidableEq, Repr

/-- What is said about a file that cannot be read. -/
def FileError.message : FileError → String
  | .notFound => "No such file or directory (os error 2)"
  | .permissionDenied => "Permission denied (os error 13)"
  | .notDirectory => "Not a directory (os error 20)"
  | .isDirectory => "Is a directory (os error 21)"
  | .nameTooLong => "File name too long (os error 36)"
  | .notText => "stream did not contain valid UTF-8"
  | .other message => message

/-- A file with its text, or a directory with its named entries. -/
inductive FileTree where
  | file (text : String)
  | directory (entries : List (String × FileTree))

namespace FileTree

/-- The steps of a path: the texts between its slashes.  `step` is the beginning of the first one,
its last character first. -/
def steps (step : List Char) : List Char → List String
  | [] => [String.ofList step.reverse]
  | c :: rest =>
    if c = '/' then String.ofList step.reverse :: steps [] rest
    else steps (c :: step) rest

/-- A directory without entries. -/
def empty : FileTree :=
  .directory []

/-- The entries of a directory; a file has none. -/
def entries : FileTree → List (String × FileTree)
  | .file _ => []
  | .directory entries => entries

/-- The tree with a text at the end of a way down, in place of what was there; directories that are
missing on the way are made. -/
def put (text : String) : List String → FileTree → FileTree
  | [], _ => .file text
  | name :: rest, tree =>
    let below := (tree.entries.lookup name).getD empty
    .directory ((name, put text rest below) :: tree.entries.filter (·.1 != name))

/-- The directory that holds some texts, each under its path. -/
def ofTexts (texts : List (String × String)) : FileTree :=
  texts.foldl (fun tree (path, text) => tree.put text (steps [] path.toList)) empty

/-- A place in a tree: what stands there, and the directories above it, the nearest first. -/
structure Place where
  here : FileTree
  above : List FileTree := []

namespace Place

/-- The place above a place; nothing is above the top. -/
def up (p : Place) : Place :=
  match p.above with
  | [] => p
  | parent :: above => ⟨parent, above⟩

/-- The top of the tree. -/
def top (p : Place) : Place :=
  ⟨p.above.getLastD p.here, []⟩

/-- The place that a step leads to.  The name of an entry has at most 255 bytes. -/
def step (p : Place) (name : String) : Except FileError Place :=
  match p.here with
  | .file _ => .error .notDirectory
  | .directory entries =>
    if name = "" || name = "." then .ok p
    else if name = ".." then .ok p.up
    else if 255 < name.utf8ByteSize then .error .nameTooLong
    else match entries.lookup name with
      | none => .error .notFound
      | some tree => .ok ⟨tree, p.here :: p.above⟩

/-- The place that a path leads to.  A path has at least one byte and fewer than 4096. -/
def follow (p : Place) (path : String) : Except FileError Place :=
  if path.isEmpty then .error .notFound
  else if 4096 ≤ path.utf8ByteSize then .error .nameTooLong
  else (steps [] path.toList).foldlM step (if path.toList.head? = some '/' then p.top else p)

/-- The text that a path leads to. -/
def read (p : Place) (path : String) : Except FileError String :=
  match p.follow path with
  | .error error => .error error
  | .ok ⟨.directory _, _⟩ => .error .isDirectory
  | .ok ⟨.file text, _⟩ => .ok text

end Place

end FileTree

end ScriptTrace
