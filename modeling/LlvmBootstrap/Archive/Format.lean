import LlvmBootstrap.Path

/-!
How the sources are packed, read off the end of the address they come from.
-/

namespace LlvmBootstrap.Archive

inductive Format where
  | xz
  | gzip
  | plain
  deriving DecidableEq

/-- An address without its query and fragment. -/
def addressPath (url : List Char) : List Char := url.takeWhile fun c => c ≠ '?' && c ≠ '#'

def endsWith (cs : List Char) (ending : String) : Bool := ending.toList.isSuffixOf cs

/-- The endings of each format, in the order they are tried. -/
def endings : List (Format × List String) :=
  [(.xz, [".tar.xz", ".txz"]), (.gzip, [".tar.gz", ".tgz"]), (.plain, [".tar"])]

def Format.ofUrl? (url : String) : Option Format :=
  (endings.find? fun e => e.2.any (endsWith (addressPath url.toList))).map (·.1)

end LlvmBootstrap.Archive
