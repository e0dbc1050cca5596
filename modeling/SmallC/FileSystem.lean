import SmallC.Path

/-!
# File systems

Reading needs only two things of a file system: which paths are files, and the
text of a file or the reason why it cannot be read.
-/

namespace SmallC

/-- Why a file cannot be read or written. -/
inductive FileFault where
  | notFound
  | alreadyExists
  | notDirectory
  | isDirectory
  | notText
  | other (reason : String)
  deriving DecidableEq, Inhabited, Repr

/-- The wording of a file fault. -/
def FileFault.message : FileFault → String
  | .notFound => "No such file or directory (os error 2)"
  | .alreadyExists => "File exists (os error 17)"
  | .notDirectory => "Not a directory (os error 20)"
  | .isDirectory => "Is a directory (os error 21)"
  | .notText => "stream did not contain valid UTF-8"
  | .other reason => reason

/-- A file system as a reader sees it. -/
structure FileSystem where
  /-- The path is that of a file. -/
  isFile : Path → Bool
  /-- The text of a file. -/
  read : Path → Except FileFault String

end SmallC
