import SmallC.FileSystem

/-!
# File trees

A file tree is a file system with all its contents: directories and files under
the names that lead to them from the root, and a current directory. Every piece
of a path but the last has to lead to a directory, and an empty piece or a single
dot after the last name asks for a directory too.
-/

namespace SmallC

/-- What stands under a name. -/
inductive FileEntry where
  | directory
  | file (content : ByteArray)
  deriving Inhabited

/-- The files and directories under a root, which is always there. -/
structure FileTree where
  /-- The names from the root to the current directory. -/
  current : List String
  /-- The entries by the names that lead to them. -/
  entries : List (List String × FileEntry)

namespace FileTree

/-- The entry that some names lead to. -/
def entry? (t : FileTree) (names : List String) : Option FileEntry :=
  if names = [] then some .directory
  else (t.entries.find? fun e => e.1 = names).map (·.2)

/-- The tree with an entry in place of what was there. -/
def set (t : FileTree) (names : List String) (entry : FileEntry) : FileTree :=
  { t with entries := (names, entry) :: t.entries.filter fun e => e.1 ≠ names }

/-- The names after one more piece of a path. -/
def follow (names : List String) (piece : List Char) : List String :=
  if piece = [] ∨ piece = ['.'] then names
  else if piece = ['.', '.'] then names.dropLast
  else names ++ [String.ofList piece]

/-- The names that the pieces of a path lead to from a directory; the last of
them need not be there. -/
def walk (t : FileTree) (names : List String) : List (List Char) → Except FileFault (List String)
  | [] => .ok names
  | piece :: pieces =>
    match t.entry? names with
    | none => .error .notFound
    | some (.file _) => .error .notDirectory
    | some .directory => walk t (follow names piece) pieces

/-- The names that some characters of a path lead to. -/
def locateText (t : FileTree) : List Char → Except FileFault (List String)
  | [] => .error .notFound
  | '/' :: cs => t.walk [] (Text.pieces '/' cs)
  | cs => t.walk t.current (Text.pieces '/' cs)

/-- The names that a path leads to. -/
def locate (t : FileTree) (p : Path) : Except FileFault (List String) := t.locateText p.text.toList

/-- The entry that a path leads to. -/
def find (t : FileTree) (p : Path) : Except FileFault FileEntry :=
  match t.locate p with
  | .error fault => .error fault
  | .ok names =>
    match t.entry? names with
    | none => .error .notFound
    | some entry => .ok entry

/-- The path leads to a file. -/
def isFile (t : FileTree) (p : Path) : Bool :=
  match t.find p with
  | .ok (.file _) => true
  | _ => false

/-- The path leads to a directory. -/
def isDirectory (t : FileTree) (p : Path) : Bool :=
  match t.find p with
  | .ok .directory => true
  | _ => false

/-- The text of a file. -/
def read (t : FileTree) (p : Path) : Except FileFault String :=
  match t.find p with
  | .error fault => .error fault
  | .ok .directory => .error .isDirectory
  | .ok (.file content) =>
    match String.fromUTF8? content with
    | some text => .ok text
    | none => .error .notText

/-- The tree as a reader sees it. -/
def toFileSystem (t : FileTree) : FileSystem := ⟨t.isFile, t.read⟩

/-- The tree with a file at a path, whose directory has to be there. -/
def write (t : FileTree) (p : Path) (content : ByteArray) : Except FileFault FileTree :=
  match t.locate p with
  | .error fault => .error fault
  | .ok names =>
    match t.entry? names with
    | some .directory => .error .isDirectory
    | _ => .ok (t.set names (.file content))

/-- The tree with a new directory at a path; separators at the end of the path do
not count. -/
def makeDirectory (t : FileTree) (p : Path) : Except FileFault FileTree :=
  let kept := (p.text.toList.reverse.dropWhile (· = '/')).reverse
  match t.locateText (if kept = [] then p.text.toList else kept) with
  | .error fault => .error fault
  | .ok names =>
    match t.entry? names with
    | some _ => .error .alreadyExists
    | none => .ok (t.set names .directory)

/-- The tree with a directory at a path and at all its parents, of which at most
`fuel` are tried. -/
def makeDirectoriesWithin : Nat → FileTree → Path → Except FileFault FileTree
  | 0, _, _ => .error .notFound
  | fuel + 1, t, p =>
    if p.text = "" then .ok t
    else
      match t.makeDirectory p with
      | .ok t' => .ok t'
      | .error .notFound =>
        match p.parent? with
        | none => .error .notFound
        | some parent =>
          match makeDirectoriesWithin fuel t parent with
          | .error fault => .error fault
          | .ok t' =>
            match t'.makeDirectory p with
            | .ok t'' => .ok t''
            | .error fault => if t'.isDirectory p then .ok t' else .error fault
      | .error fault => if t.isDirectory p then .ok t else .error fault

/-- The tree with a directory at a path and at all its parents; those that are
there stay as they are. -/
def makeDirectories (t : FileTree) (p : Path) : Except FileFault FileTree :=
  makeDirectoriesWithin (p.text.length + 1) t p

/-- The files below the current directory, by their paths from there. -/
def files (t : FileTree) : List (String × ByteArray) :=
  t.entries.filterMap fun e =>
    match e.2 with
    | .directory => none
    | .file content =>
      if t.current.isPrefixOf e.1 then
        some ("/".intercalate (e.1.drop t.current.length), content)
      else none

/-- The tree with an entry at a path, together with the directories it needs;
where that cannot be, the tree stays as it is. -/
def plant (t : FileTree) (p : Path) : FileEntry → FileTree
  | .directory => (t.makeDirectories p).toOption.getD t
  | .file content =>
    let planted := do
      let t' ← t.makeDirectories (p.parent?.getD ⟨""⟩)
      t'.write p content
    planted.toOption.getD t

/-- A tree of an empty current directory with the given names. -/
def ofCurrent (names : List String) : FileTree :=
  ⟨names, (List.range names.length).map fun i => (names.take (i + 1), .directory)⟩

end FileTree

end SmallC
