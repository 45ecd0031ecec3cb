import LlvmBootstrap.Defaults
import LlvmBootstrap.Environment
import LlvmBootstrap.Root

/-!
The settings of a bootstrap: where LLVM comes from, where it goes, and which tools build it.
-/

namespace LlvmBootstrap

/-- Where the sources come from. -/
structure SourceArchive where
  url : String
  /-- The directory in the archive that holds the sources. -/
  top : String
  /-- The digest that the archive should have, as written in the settings. -/
  sha256 : Option String
  deriving DecidableEq

namespace Settings

structure Llvm where
  version : String
  url : Option String
  archiveTop : Option String
  sha256 : Option String
  deriving DecidableEq

structure Cmake where
  program : String
  generator : Option String
  deriving DecidableEq

structure Cargo where
  program : String
  /-- The variable that tells the build where LLVM is. -/
  prefixVariable : String
  deriving DecidableEq

structure Msvc where
  baseDir : Option Path
  install : Option Path
  deriving DecidableEq

def Llvm.default : Llvm := ⟨Defaults.llvmVersion, none, none, none⟩

def Cmake.default : Cmake := ⟨"cmake", none⟩

def Cargo.default : Cargo := ⟨"cargo", Defaults.prefixVariable⟩

def Msvc.default : Msvc := ⟨none, none⟩

end Settings

structure Settings where
  root : Option Path
  llvm : Settings.Llvm
  cmake : Settings.Cmake
  cargo : Settings.Cargo
  msvc : Settings.Msvc
  /-- Variables that name the compilers, set over the environment of the builds. -/
  compilers : Option Variables
  deriving DecidableEq

namespace Settings

def default : Settings := ⟨none, .default, .default, .default, .default, none⟩

/-- The settings with what the environment says over them. -/
def withEnvironment (s : Settings) (e : Environ) : Settings :=
  { s with
    root := ((e.text? Defaults.rootVariable).map Path.ofString).or s.root
    msvc := { s.msvc with
      install := ((e.text? Defaults.msvcVariable).map Path.ofString).or s.msvc.install } }

/-- The root as seen from a directory. -/
def rootFrom (s : Settings) (dir : Path) : Root := ⟨dir / s.root.getD Defaults.rootDir⟩

def archive (s : Settings) : SourceArchive where
  url := s.llvm.url.getD (Defaults.archiveUrl s.llvm.version)
  top := s.llvm.archiveTop.getD (Defaults.archiveTop s.llvm.version)
  sha256 := s.llvm.sha256

end Settings

end LlvmBootstrap
