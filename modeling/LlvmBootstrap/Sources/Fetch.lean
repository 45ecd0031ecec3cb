import LlvmBootstrap.Archive.Extract
import LlvmBootstrap.Download
import LlvmBootstrap.Settings
import LlvmBootstrap.Sources.Digest
import LlvmBootstrap.Stage

/-!
Fetching the sources. They are unpacked into a staging directory beside the place where they
are to be and moved there as a whole in the end; the staging directory does not outlive the
fetch. So a fetch that fails or is cut off at any time leaves no sources.
-/

namespace LlvmBootstrap.Sources

open Archive Program

inductive Fetched where
  | already
  | unpacked (entries : Nat)
  deriving DecidableEq

/-- How many names are tried for the staging directory. -/
def maxTries : Nat := 65536

/-- Makes a new staging directory, under a name that is drawn until one is free. Its errors
leave out the name. -/
def makeStaging (r : Root) : Nat → Attempt Errno Path
  | 0 => throw .exists
  | tries + 1 => do
    let name : Name ← make .draw
    let p := r.path / (⟨Utf8.encode Root.stagingPrefix ++ name⟩ : Path)
    match ← make (.change (.mkdir p)) with
    | .ok () => return p
    | .error .exists => makeStaging r tries
    | .error e => throw e

/-- Works in a staging directory, which is removed in the end. -/
def withStaging {α : Type} (r : Root) (work : Path → Attempt SourceError α) :
    Attempt SourceError α := do
  let staging ← orFail (makeStaging r maxTries)
  ExceptT.mk do
    let result ← (work staging).run
    let _ ← make (m := Program) (.change (.removeAll staging))
    return result

def checkDigest (a : SourceArchive) (file : Bytes) : Attempt SourceError Unit :=
  match a.sha256 with
  | none => return ()
  | some expected =>
    let actual := Sha256.hex file
    if Digest.fits actual expected then return ()
    else throw (.digestMismatch a.url expected actual)

/-- Unpacks the sources and puts them in their place. -/
def unpackSources (a : SourceArchive) (r : Root) (format : Format) (file : Bytes)
    (staging : Path) :
    Attempt SourceError Fetched := do
  make (.log .info "extracting sources")
  let entries ← extract file format a.top staging
  if entries = 0 then throw (.noEntries a.top)
  orFail (change (.renameDir staging r.sources))
  make (.log .info "sources ready")
  return .unpacked entries

/-- Makes sure that the sources are there. -/
def fetch (a : SourceArchive) (r : Root) (record : StageRecord) :
    Attempt SourceError Fetched := do
  if ← record.isComplete .fetch then
    make (.log .info "sources already fetched")
    return .already
  let some format := Format.ofUrl? a.url | throw (.unsupportedArchive a.url)
  orFail (makeDirs r.path)
  let file ← download a.url
  checkDigest a file
  withStaging r (unpackSources a r format file)

end LlvmBootstrap.Sources
