import LlvmBootstrap.Checksum.Sha256
import LlvmBootstrap.Text.Blank

/-!
Comparing the digest of a file with the one that is expected of it.
-/

namespace LlvmBootstrap.Digest

/-- Whether a digest is the expected one, whose letters may be of either case and
which may have blanks around it. -/
def fits (actual expected : String) : Bool :=
  actual.toList.map Char.toLower = (Blank.trim expected.toList).map Char.toLower

end LlvmBootstrap.Digest
