import LlvmBootstrap.Platform.Environment

/-!
What a build asks of the system it is done on. Each platform is a host.
-/

namespace LlvmBootstrap

structure Host where
  /-- The environment in which the compilers can be run. Making it may take commands. -/
  environment : Arch → Attempt PlatformError Variables
  /-- The generator that writes the build files. -/
  generator : Arch → Except PlatformError String
  /-- The name of a target in the build tool of projects. -/
  triple : Arch → Except PlatformError String
  /-- What is added to the configuration of LLVM. -/
  flags : Arch → List String

def Platform.toHost (p : Platform) : Host where
  environment := p.environment
  generator a := .ok (p.generator a)
  triple := p.triple
  flags := p.flags

instance : Coe Platform Host := ⟨Platform.toHost⟩

end LlvmBootstrap
