/-!
The names that the tool goes by, and what is used where the settings say nothing.
-/

namespace LlvmBootstrap.Defaults

def tool : String := "newt-build"

def toolVersion : String := "0.2.0"

/-- The settings file that is looked for in the current directory. -/
def settingsFile : String := "newt-build.toml"

def llvmVersion : String := "6.0.1"

/-- The variable in which a build looks for the installed LLVM. -/
def prefixVariable : String := "LLVM_SYS_60_PREFIX"

/-- The bootstrap root, seen from the current directory. -/
def rootDir : String := "llvm"

def rootVariable : String := "NEWT_BUILD_ROOT"

def msvcVariable : String := "NEWT_MSVC_INSTALL"

/-- The top directory of the sources of a version in their archive. -/
def archiveTop (version : String) : String := "llvm-" ++ version ++ ".src"

def archiveUrl (version : String) : String :=
  "https://releases.llvm.org/" ++ version ++ "/" ++ archiveTop version ++ ".tar.xz"

end LlvmBootstrap.Defaults
