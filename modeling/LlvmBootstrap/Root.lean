import LlvmBootstrap.Arch
import LlvmBootstrap.Path

/-!
The bootstrap root: one directory that holds the unpacked sources, which all architectures
share, and for each architecture a build tree and an install directory, besides the lock file
of the run in progress.
-/

namespace LlvmBootstrap

structure Root where
  path : Path
  deriving DecidableEq

namespace Root

def sources (r : Root) : Path := r.path / ("source" : Path)

def build (r : Root) (a : Arch) : Path := r.path / (("build-" ++ a.text : String) : Path)

def install (r : Root) (a : Arch) : Path := r.path / (a.text : Path)

def lock (r : Root) : Path := r.path / (".lock" : Path)

/-- What the names of directories begin with in which sources are unpacked at first. -/
def stagingPrefix : String := ".source-staging-"

end Root

end LlvmBootstrap
