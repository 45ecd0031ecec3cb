/-!
Why a call on a file tree is refused, and the text shown for it.
-/

namespace LlvmBootstrap

inductive Errno where
  | notPermitted
  | notFound
  /-- A file that may be run holds no program. -/
  | notProgram
  | permission
  | exists
  | notDirectory
  | isDirectory
  | invalid
  | nameTooLong
  | notEmpty
  | loop
  /-- A path holds a zero octet, so no call can be made with it. -/
  | zeroInPath
  /-- What is to be copied is no regular file. -/
  | notRegular
  deriving DecidableEq

/-- The words for an error, with its number where it is one of the operating system. -/
def Errno.words : Errno → Option Nat × String
  | .notPermitted => (some 1, "Operation not permitted")
  | .notFound => (some 2, "No such file or directory")
  | .notProgram => (some 8, "Exec format error")
  | .permission => (some 13, "Permission denied")
  | .exists => (some 17, "File exists")
  | .notDirectory => (some 20, "Not a directory")
  | .isDirectory => (some 21, "Is a directory")
  | .invalid => (some 22, "Invalid argument")
  | .nameTooLong => (some 36, "File name too long")
  | .notEmpty => (some 39, "Directory not empty")
  | .loop => (some 40, "Too many levels of symbolic links")
  | .zeroInPath => (none, "file name contained an unexpected NUL byte")
  | .notRegular =>
    (none, "the source path is neither a regular file nor a symlink to a regular file")

def Errno.message (e : Errno) : String :=
  match e.words with
  | (some n, words) => words ++ " (os error " ++ toString n ++ ")"
  | (none, words) => words

end LlvmBootstrap
