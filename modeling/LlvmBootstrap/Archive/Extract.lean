import LlvmBootstrap.Archive.Format
import LlvmBootstrap.Archive.Unpack
import LlvmBootstrap.Packing.Gzip
import LlvmBootstrap.Packing.Xz

/-!
Extracting an archive, given as the octets of its file.
-/

namespace LlvmBootstrap.Archive

/-- The tar stream in a file. -/
def Format.stream : Format → Bytes → Stream
  | .xz, bs => Xz.unpack bs
  | .gzip, bs => Gzip.unpack bs
  | .plain, bs => ⟨bs, false⟩

/-- Unpacks all below the directory `top` of an archive into the directory `dest`, and gives
the number of members that were unpacked. -/
def extract (file : Bytes) (format : Format) (top : String) (dest : Path) :
    Attempt SourceError Nat :=
  unpack (Tar.read (format.stream file)) top dest

end LlvmBootstrap.Archive
