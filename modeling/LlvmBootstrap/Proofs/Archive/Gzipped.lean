import LlvmBootstrap.Archive.Extract
import LlvmBootstrap.Proofs.Archive.Rejection
import LlvmBootstrap.Proofs.Packing.Stored
import LlvmBootstrap.Proofs.Tar.Cut

/-!
Archives packed in several gzip members, as they are when files are packed in parallel or put
one behind the other. Only the first member is unpacked, so what becomes of such an archive
depends on where it was cut. In the middle of something the loss is noticed; behind the end
marker there is nothing to lose. But a cut in front of a header passes for the end of the
archive, and all that was packed behind it is lost.
-/

namespace LlvmBootstrap.Archive

open Tar Program

variable {file bytes : Bytes}

def unpackFrom (count : Nat) (members : Members) (top dest : Path) :
    Attempt SourceError Nat := do
  let count ← unpackAll top dest count members.list
  if members.damaged then throw (.failed (.told "damaged archive"))
  return count

theorem unpack_append {a : Members} (hsound : a.damaged = false) (b : Members)
    (top dest : Path) :
    unpack (a.append b) top dest = unpack a top dest >>= fun n => unpackFrom n b top dest := by
  have ha : unpack a top dest = unpackAll top dest 0 a.list := by
    rw [← run_unpack_undamaged, ← hsound]
  rw [ha, unpack, Members.append, unpackAll_append, LawfulMonad.bind_assoc]
  rfl

theorem unpack_damaged_ne_ok {σ : Type} {members : Members} (hdamaged : members.damaged = true)
    (top dest : Path) (o : Outside σ) (w : World σ) (n : Nat) :
    ((unpack members top dest).run.run o w).1 ≠ .ok n := by
  intro hok
  have hgoes := Goes.run o (unpack members top dest).run w
  rw [hok] at hgoes
  rw [(goes_unpack_ok hgoes).1] at hdamaged
  contradiction

theorem extract_append (h : Gzip.IsMember file bytes) (more : Bytes) (top : String)
    (dest : Path) :
    extract (file ++ more) .gzip top dest = extract bytes .plain top dest := by
  rw [extract, extract, Format.stream, Gzip.unpack_append h]
  rfl

/-- **What an archive gives that was cut into gzip members.** Either it is never unpacked, or
it gives what the archive itself gives, or the first piece is sound and ends between two
members of the archive: then it gives what that piece gives, and the archive itself gives that
and then what is in the other pieces. -/
theorem extract_gzip_pieces {files pieces : List Bytes}
    (h : List.Forall₂ Gzip.IsMember files pieces) (top : String) (dest : Path) :
    (∀ (σ : Type) (o : Outside σ) (w : World σ) (n : Nat),
      ((extract files.flatten .gzip top dest).run.run o w).1 ≠ .ok n) ∨
    extract files.flatten .gzip top dest = extract pieces.flatten .plain top dest ∨
    ∃ first others, pieces = first :: others ∧ (Tar.read ⟨first, false⟩).damaged = false ∧
      extract files.flatten .gzip top dest = extract first .plain top dest ∧
      extract pieces.flatten .plain top dest = extract first .plain top dest >>= fun n =>
        unpackFrom n (Tar.read ⟨others.flatten, false⟩) top dest := by
  cases h with
  | nil =>
      have hdamaged : (Tar.read (Gzip.unpack [])).damaged = true := by
        simp [Gzip.unpack, Gzip.body?, Tar.read, readFrom]
      exact .inl fun σ o w n => unpack_damaged_ne_ok hdamaged top dest o w n
  | @cons file first files others hfirst hothers =>
      have hgzip := extract_append hfirst files.flatten top dest
      rw [← List.flatten_cons] at hgzip
      rw [hgzip, List.flatten_cons]
      cases ends .none first with
      | damaged hdamaged =>
          exact .inl fun σ o w n =>
            unpack_damaged_ne_ok hdamaged top dest o w n
      | closed hclosed =>
          refine .inr (.inl ?_)
          rw [extract, extract, Format.stream, Format.stream, Tar.read, Tar.read, hclosed]
      | unclosed hsound hopen =>
          refine .inr (.inr ⟨first, others, rfl, hsound, rfl, ?_⟩)
          rw [extract, extract, Format.stream, Format.stream, Tar.read, Tar.read, hopen]
          exact unpack_append hsound _ top dest

/-- The header of an empty file `R/NAME`, whose name has one letter. -/
def headerOf (name sum : UInt8) : Bytes :=
  [0x52, 0x2F, name] ++ List.replicate 121 0 ++ List.replicate 11 0x30 ++
  List.replicate 13 0 ++
    [0x30, 0x30, 0x32, 0x30, 0x34, sum, 0, 0x20, 0x30] ++ List.replicate 355 0

def headerA : Bytes := headerOf 0x61 0x32

def headerB : Bytes := headerOf 0x62 0x33

def emptyFile (path : String) : Member := ⟨Path.ofString path, .file, none, none, [], true⟩

theorem read_headerA : Tar.read ⟨headerA, false⟩ = ⟨[emptyFile "R/a"], false⟩ := by
  decide +kernel

theorem read_headers : Tar.read ⟨[headerA, headerB].flatten, false⟩ =
    ⟨[emptyFile "R/a", emptyFile "R/b"], false⟩ := by
  decide +kernel

/-- One of two files is lost: the archive itself gives both. -/
theorem extract_gzip_pieces_halfLost :
    let w := World.fresh bareDir [] .empty 1 ()
    let packed :=
      extract [Gzip.storedMember headerA, Gzip.storedMember headerB].flatten .gzip "R" "/d"
    let plain := extract [headerA, headerB].flatten .plain "R" "/d"
    List.Forall₂ Gzip.IsMember [Gzip.storedMember headerA, Gzip.storedMember headerB]
        [headerA, headerB] ∧
      (packed.run.run silent w).1 = .ok 1 ∧ (plain.run.run silent w).1 = .ok 2 ∧
      plain = packed >>= fun n =>
        unpackFrom n (Tar.read ⟨[headerB].flatten, false⟩) "R" "/d" := by
  intro w packed plain
  have h : List.Forall₂ Gzip.IsMember [Gzip.storedMember headerA, Gzip.storedMember headerB]
      [headerA, headerB] :=
    .cons (Gzip.isMember_storedMember (by decide +kernel))
      (.cons (Gzip.isMember_storedMember (by decide +kernel)) .nil)
  have hpacked : packed = unpack ⟨[emptyFile "R/a"], false⟩ "R" "/d" := by
    rw [← read_headerA]
    exact extract_append (Gzip.isMember_storedMember (by decide +kernel)) ..
  have hplain : plain = unpack ⟨[emptyFile "R/a", emptyFile "R/b"], false⟩ "R" "/d" := by
    rw [← read_headers]
    rfl
  -- The two numbers of members differ, which rules out that nothing is lost.
  have hone : (packed.run.run silent (World.fresh bareDir [] .empty 1 ())).1 = .ok 1 := by
    rw [hpacked]
    cbv
  have htwo : (plain.run.run silent (World.fresh bareDir [] .empty 1 ())).1 = .ok 2 := by
    rw [hplain]
    cbv
  refine ⟨h, hone, htwo, ?_⟩
  rcases extract_gzip_pieces h "R"
    "/d" with hrefused | hsame | ⟨first, others, heq, -, hfirst, hgoesOn⟩
  · exact absurd hone (hrefused Unit silent _ 1)
  · rw [show packed = plain from hsame, htwo] at hone
    exact absurd hone (by decide)
  · obtain ⟨rfl, rfl⟩ := List.cons.inj heq
    rw [← hfirst] at hgoesOn
    exact hgoesOn

end LlvmBootstrap.Archive
