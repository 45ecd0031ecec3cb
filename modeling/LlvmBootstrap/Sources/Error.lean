import LlvmBootstrap.Machine.Program

/-!
Why the sources could not be made ready.
-/

namespace LlvmBootstrap

inductive SourceError where
  | unsupportedArchive (url : String)
  | transfer (url reason : String)
  | digestMismatch (url expected actual : String)
  /-- A member would be written outside the directory it is unpacked to. -/
  | pathEscapes (entry : Path)
  /-- A link member points outside of the archive's top directory. -/
  | linkEscapes (entry target : Path)
  /-- No member lies under the top directory the archive should have. -/
  | noEntries (top : String)
  | failed (cause : Failure)
  deriving DecidableEq

def SourceError.message : SourceError → String
  | .unsupportedArchive url => "unsupported archive format: " ++ url
  | .transfer url reason => "fetch failed for " ++ url ++ ": " ++ reason
  | .digestMismatch url expected actual =>
    "hash mismatch for " ++ url ++ ": expected " ++ expected ++ ", got " ++ actual
  | .pathEscapes entry => "archive entry escapes the extraction root: " ++ entry.display
  | .linkEscapes entry target =>
    "archive link " ++ entry.display ++ " points outside the extraction root: " ++
    target.display
  | .noEntries top => "archive has no entries under '" ++ top ++ "'"
  | .failed cause => "io error: " ++ cause.message

end LlvmBootstrap
