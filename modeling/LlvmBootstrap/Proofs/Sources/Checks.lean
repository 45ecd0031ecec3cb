import LlvmBootstrap.Proofs.Sources.Atomic
import LlvmBootstrap.Proofs.Sources.Expected
import LlvmBootstrap.Proofs.Sources.Requests

/-!
The checks of a fetch in their order. Nothing is asked for before it is known how the sources
are packed, and nothing is unpacked, nor is there a directory for it, before the file is there
and has the digest that is expected of it. The first check that fails tells why there are no
sources.
-/

namespace LlvmBootstrap.Sources

open Archive Download Program

variable {σ : Type} {o : Outside σ} {a : SourceArchive} {r : Root} {f : Format} {file : Bytes}
  {w w' m d s x : World σ} {staging : Path} {tr : List Answered}

/-- The file has the digest that is expected of it, if one is. -/
def Trusted (a : SourceArchive) (file : Bytes) : Prop :=
  ∀ expected, a.sha256 = some expected → Digest.Says expected (Sha256.hex file)

/-- The calls of a fetch that finds nothing to do or does not know how: it looks and tells. -/
inductive Looks : Call → Prop
  | look (p : Path) : Looks (.look true p)
  | log (level : Level) (text : String) : Looks (.log level text)

/-- The calls by which a fetch gets ready for unpacking: it looks and tells, makes the
directory of the root and those above it, and asks for the file. -/
inductive Prepares (r : Root) : Call → Prop
  | making {c : Call} (h : Making (r.path :: ancestors r.path) c) : Prepares r c
  | log (level : Level) (text : String) : Prepares r (.log level text)
  | send (url : Url) : Prepares r (.send url)

def told (o : Outside σ) (s : World σ) : World σ :=
  (s.perform o (.log .info "extracting sources")).2

/-! ### What comes behind the checks of the file -/

/-- What unpacking a trusted file from the world `d` on comes to, by
the first thing that fails. -/
inductive Unpacks (o : Outside σ) (a : SourceArchive) (r : Root) (f : Format) (file : Bytes)
    (d : World σ) :
    Except SourceError Fetched → Prop
  | staging {e : Errno} {s : World σ}
      (hstaging : (makeStaging r maxTries).run.run o d = (.error e, s)) :
      Unpacks o a r f file d (.error (.failed (.system e)))
  | extraction {e : SourceError} {staging : Path} {s x : World σ}
      (hstaging : (makeStaging r maxTries).run.run o d = (.ok staging, s))
      (hextract : (extract file f a.top staging).run.run o (told o s) = (.error e, x)) :
      Unpacks o a r f file d (.error e)
  | noEntries {staging : Path} {s x : World σ}
      (hstaging : (makeStaging r maxTries).run.run o d = (.ok staging, s))
      (hextract : (extract file f a.top staging).run.run o (told o s) = (.ok 0, x)) :
      Unpacks o a r f file d (.error (.noEntries a.top))
  | rename {n : Nat} {e : Errno} {staging : Path} {s x : World σ}
      (hstaging : (makeStaging r maxTries).run.run o d = (.ok staging, s))
      (hextract : (extract file f a.top staging).run.run o (told o s) = (.ok n, x))
      (hpos : 0 < n) (hrename : x.tree.renameDir x.cwd staging r.sources = .error e) :
      Unpacks o a r f file d (.error (.failed (.system e)))
  | done {n : Nat} {t : Tree} {staging : Path} {s x : World σ}
      (hstaging : (makeStaging r maxTries).run.run o d = (.ok staging, s))
      (hextract : (extract file f a.top staging).run.run o (told o s) = (.ok n, x))
      (hpos : 0 < n) (hrename : x.tree.renameDir x.cwd staging r.sources = .ok t) :
      Unpacks o a r f file d (.ok (.unpacked n))

theorem exists_unpacks (o : Outside σ) (a : SourceArchive) (r : Root) (f : Format)
    (file : Bytes) (d : World σ) : ∃ res, Unpacks o a r f file d res := by
  rcases hstaging : (makeStaging r maxTries).run.run o d with ⟨e | staging, s⟩
  · exact ⟨_, .staging hstaging⟩
  · rcases hextract : (extract file f a.top staging).run.run o (told o s) with ⟨e | n, x⟩
    · exact ⟨_, .extraction hstaging hextract⟩
    · rcases Nat.eq_zero_or_pos n with rfl | hpos
      · exact ⟨_, .noEntries hstaging hextract⟩
      · cases hrename : x.tree.renameDir x.cwd staging r.sources with
        | error e => exact ⟨_, .rename hstaging hextract hpos hrename⟩
        | ok t => exact ⟨_, .done hstaging hextract hpos hrename⟩

section

variable {α : Type} {b : α} {e : Errno} {y : Attempt Errno α} {c : Change}

theorem run_orFail_ok (h : y.run.run o w = (.ok b, w')) :
    (orFail y).run.run o w = (.ok b, w') := by
  rw [orFail, run_adapt, run_bind, h]
  rfl

theorem run_orFail_error (h : y.run.run o w = (.error e, w')) :
    (orFail y).run.run o w = (.error (.failed (.system e)), w') := by
  rw [orFail, run_adapt, run_bind, h]
  rfl

theorem run_change_ok {t : Tree} (h : c.apply w.tree w.cwd = .ok t) :
    (change c).run.run o w = (.ok (), { w with tree := t }) :=
  World.perform_change_ok (o := o) h

theorem run_change_error (h : c.apply w.tree w.cwd = .error e) :
    (change c).run.run o w = (.error e, w) := World.perform_change_error (o := o) h

end

/-- Work in a staging directory gives what it gives, whatever becomes of the directory. -/
theorem run_withStaging {α : Type} {work : Path → Attempt SourceError α}
    (h : (makeStaging r maxTries).run.run o d = (.ok staging, s)) :
    ((withStaging r work).run.run o d).1 = ((work staging).run.run o s).1 := by
  rw [withStaging, run_bind_ok (run_orFail_ok h)]
  change (((work staging).run >>= fun result => _).run o s).1 = _
  rw [run_bind]
  rfl

def place (a : SourceArchive) (r : Root) (staging : Path) (entries : Nat) :
    Attempt SourceError Fetched := do
  if entries = 0 then throw (.noEntries a.top)
  orFail (change (.renameDir staging r.sources))
  make (.log .info "sources ready")
  return .unpacked entries

theorem run_unpackSources : (unpackSources a r f file staging).run.run o s =
    (extract file f a.top staging >>= place a r staging).run.run o (told o s) := rfl

theorem run_place_pos {n : Nat} (hpos : 0 < n) : (place a r staging n).run.run o x =
    (orFail (change (.renameDir staging r.sources)) >>= fun _ =>
      (make (.log .info "sources ready") : Attempt SourceError Unit) >>= fun _ =>
        pure (.unpacked n)).run.run o x := by
  rw [place, if_neg (Nat.ne_of_gt hpos)]
  rfl

/-- It is the first thing to fail that tells what unpacking comes to. -/
theorem run_of_unpacks {res : Except SourceError Fetched} (h : Unpacks o a r f file d res) :
    ((withStaging r (unpackSources a r f file)).run.run o d).1 = res := by
  cases h with
  | staging hstaging => rw [withStaging, run_bind_error (run_orFail_error hstaging)]
  | extraction hstaging hextract =>
      rw [run_withStaging hstaging, run_unpackSources, run_bind_error hextract]
  | noEntries hstaging hextract =>
      rw [run_withStaging hstaging, run_unpackSources, run_bind_ok hextract]
      rfl
  | @rename n e staging s x hstaging hextract hpos hrename =>
      rw [run_withStaging hstaging, run_unpackSources, run_bind_ok hextract,
        run_place_pos hpos, run_bind_error
          (run_orFail_error (run_change_error (c := .renameDir staging r.sources) hrename))]
  | @done n t staging s x hstaging hextract hpos hrename =>
      rw [run_withStaging hstaging, run_unpackSources, run_bind_ok hextract,
        run_place_pos hpos, run_bind_ok
          (run_orFail_ok (run_change_ok (c := .renameDir staging r.sources) hrename))]
      rfl

/-! ### The checks -/

/-- The world `m` in which the file is asked for: the sources are not there, it is known how
they are packed, and the root has been made. -/
structure Asks (o : Outside σ) (a : SourceArchive) (r : Root) (w : World σ) (f : Format)
    (m : World σ) :
    Prop where
  missing : isFetched r w = false
  names : Names a.url f
  root : (makeDirs r.path).run.run o w = (.ok (), m)

inductive Receives (o : Outside σ) (a : SourceArchive) (r : Root) (w : World σ) (f : Format)
    (file : Bytes) :
    World σ → Prop
  | intro {m : World σ} (hasks : Asks o a r w f m)
      (hfile : received? (sends ((download a.url).run.trace o m)) = some file) :
      Receives o a r w f file ((download a.url).run.run o m).2

/-- What a fetch comes to, by the first check that fails. -/
inductive Verdict (o : Outside σ) (a : SourceArchive) (r : Root) (w : World σ) :
    Except SourceError Fetched → Prop
  | already (hthere : isFetched r w = true) : Verdict o a r w (.ok .already)
  | unsupported (hmissing : isFetched r w = false) (hnone : ∀ f, ¬ Names a.url f) :
      Verdict o a r w (.error (.unsupportedArchive a.url))
  | root {f : Format} {e : Errno} {m : World σ} (hmissing : isFetched r w = false)
      (hnames : Names a.url f) (hroot : (makeDirs r.path).run.run o w = (.error e, m)) :
      Verdict o a r w (.error (.failed (.system e)))
  | transfer {f : Format} {m : World σ} {reason : String} (hasks : Asks o a r w f m)
      (hnone : received? (sends ((download a.url).run.trace o m)) = none)
      (hreason : ((download a.url).run.run o m).1 = .error (.transfer a.url reason)) :
      Verdict o a r w (.error (.transfer a.url reason))
  | mismatch {f : Format} {file : Bytes} {d : World σ} {expected : String}
      (hreceives : Receives o a r w f file d) (hexpected : a.sha256 = some expected)
      (hother : ¬ Digest.Says expected (Sha256.hex file)) :
      Verdict o a r w (.error (.digestMismatch a.url expected (Sha256.hex file)))
  | unpacks {f : Format} {file : Bytes} {d : World σ} {res : Except SourceError Fetched}
      (hreceives : Receives o a r w f file d) (htrusted : Trusted a file)
      (hunpacks : Unpacks o a r f file d res) : Verdict o a r w res

theorem eq_error_of_toOption_eq_none {ε α : Type} {res : Except ε α}
    (h : res.toOption = none) :
    ∃ e, res = .error e := by
  cases res with
  | error e => exact ⟨e, rfl⟩
  | ok b => contradiction

theorem eq_ok_of_toOption_eq_some {ε α : Type} {res : Except ε α} {b : α}
    (h : res.toOption = some b) :
    res = .ok b := by
  cases res with
  | error e => contradiction
  | ok b => exact congrArg _ (Option.some.inj h)

theorem exists_verdict (o : Outside σ) (a : SourceArchive) (r : Root) (w : World σ) :
    ∃ res, Verdict o a r w res := by
  -- In the order in which they are looked at: each answer rules out what comes before it.
  cases hthere : isFetched r w with
  | true => exact ⟨_, .already hthere⟩
  | false =>
      by_cases hnames : ∃ f, Names a.url f
      · obtain ⟨f, hnames⟩ := hnames
        rcases hroot : (makeDirs r.path).run.run o w with ⟨e | ⟨⟩, m⟩
        · exact ⟨_, .root hthere hnames hroot⟩
        · have hasks : Asks o a r w f m := ⟨hthere, hnames, hroot⟩
          obtain ⟨-, hres, hreason⟩ := sends_of_download (.run o (download a.url).run m)
          cases hfile : received? (sends ((download a.url).run.trace o m)) with
          | none =>
              obtain ⟨e, he⟩ := eq_error_of_toOption_eq_none (hres.trans hfile)
              obtain ⟨reason, rfl⟩ := hreason e he
              exact ⟨_, .transfer hasks hfile he⟩
          | some file =>
              have hreceives := Receives.intro hasks hfile
              by_cases htrusted : Trusted a file
              · obtain ⟨res, hunpacks⟩ :=
                  exists_unpacks o a r f file ((download a.url).run.run o m).2
                exact ⟨res, .unpacks hreceives htrusted hunpacks⟩
              · simp only [Trusted, not_forall] at htrusted
                obtain ⟨expected, hexpected, hother⟩ := htrusted
                exact ⟨_, .mismatch hreceives hexpected hother⟩
      · exact ⟨_, .unsupported hthere (not_exists.mp hnames)⟩

def unpackTrusted (a : SourceArchive) (r : Root) (f : Format) (file : Bytes) :
    Attempt SourceError Fetched := do
  checkDigest a file
  withStaging r (unpackSources a r f file)

theorem fetched_of_isFetched (h : isFetched r w = true) :
    (fetched o a r w).1 = .ok .already := by
  have hlook : (fetch a r r.record).run = r.record.isComplete .fetch >>= _ :=
    ExceptT.run_bind_lift ..
  rw [fetched, hlook, run_bind, run_isComplete, h]
  rfl

theorem fetched_of_missing (h : isFetched r w = false) : fetched o a r w =
    match Format.ofUrl? a.url with
    | some f =>
        (orFail (makeDirs r.path) >>= fun _ =>
          download a.url >>= unpackTrusted a r f).run.run o w
    | none => (.error (.unsupportedArchive a.url), w) := by
  have hlook : (fetch a r r.record).run = r.record.isComplete .fetch >>= _ :=
    ExceptT.run_bind_lift ..
  rw [fetched, hlook, run_bind, run_isComplete, h]
  simp only [Bool.false_eq_true, if_false]
  cases Format.ofUrl? a.url <;> rfl

theorem Asks.fetched_eq (h : Asks o a r w f m) :
    fetched o a r w = (download a.url >>= unpackTrusted a r f).run.run o m := by
  rw [fetched_of_missing h.missing, Format.ofUrl?_eq_some_iff.mpr h.names]
  exact run_bind_ok (run_orFail_ok h.root) _

theorem Receives.fetched_eq (h : Receives o a r w f file d) :
    fetched o a r w = (unpackTrusted a r f file).run.run o d := by
  obtain ⟨hasks, hfile⟩ := h
  obtain ⟨-, hres, -⟩ := sends_of_download (.run o (download a.url).run _)
  rw [hasks.fetched_eq]
  exact run_bind_ok (Prod.ext_iff.mpr ⟨eq_ok_of_toOption_eq_some (hres.trans hfile), rfl⟩) _

theorem checkDigest_of_trusted (h : Trusted a file) : checkDigest a file = pure () := by
  rw [checkDigest]
  cases hexpected : a.sha256 with
  | none => rfl
  | some expected => exact if_pos (Digest.fits_hex_iff.mpr (h expected hexpected))

theorem checkDigest_of_not_says {expected : String} (hexpected : a.sha256 = some expected)
    (h : ¬ Digest.Says expected (Sha256.hex file)) :
    checkDigest a file = throw (.digestMismatch a.url expected (Sha256.hex file)) := by
  rw [checkDigest, hexpected]
  exact if_neg (mt Digest.fits_hex_iff.mp h)

theorem fetched_of_verdict {res : Except SourceError Fetched} (h : Verdict o a r w res) :
    (fetched o a r w).1 = res := by
  cases h with
  | already hthere => exact fetched_of_isFetched hthere
  | unsupported hmissing hnone =>
      rw [fetched_of_missing hmissing, Format.ofUrl?_eq_none_iff.mpr hnone]
  | root hmissing hnames hroot =>
      rw [fetched_of_missing hmissing, Format.ofUrl?_eq_some_iff.mpr hnames]
      exact congrArg Prod.fst (run_bind_error (run_orFail_error hroot) _)
  | transfer hasks hnone hreason =>
      rw [hasks.fetched_eq]
      exact congrArg Prod.fst (run_bind_error (Prod.ext_iff.mpr ⟨hreason, rfl⟩) _)
  | mismatch hreceives hexpected hother =>
      rw [hreceives.fetched_eq, unpackTrusted, checkDigest_of_not_says hexpected hother]
      rfl
  | unpacks hreceives htrusted hunpacks =>
      rw [hreceives.fetched_eq, unpackTrusted, checkDigest_of_trusted htrusted, pure_bind]
      exact run_of_unpacks hunpacks

/-- The result of a fetch is that of its first check to fail, and of
the unpacking if there is none. -/
theorem fetched_iff {res : Except SourceError Fetched} :
    (fetched o a r w).1 = res ↔ Verdict o a r w res := by
  -- There is a verdict, and the result is the one that it gives.
  refine ⟨?_, fetched_of_verdict⟩
  rintro rfl
  obtain ⟨res, hres⟩ := exists_verdict o a r w
  rw [fetched_of_verdict hres]
  exact hres

/-! ### Calls -/

theorem Looks.prepares {c : Call} (h : Looks c) : Prepares r c := by
  cases h with
  | look p => exact .making (.look p)
  | log level text => exact .log level text

theorem Looks.isOwn {c : Call} (h : Looks c) : c.IsOwn := by
  cases h <;> trivial

theorem goes_isComplete {there : Bool} {look : List Answered}
    (h : (r.record.isComplete .fetch).Goes o w there look w') :
    there = isFetched r w ∧ ∀ x ∈ look, Looks x.call := by
  have hrun := h.1
  rw [run_isComplete] at hrun
  have honly : (r.record.isComplete .fetch).Only Looks := by
    refine ⟨.look _, fun answer => ?_⟩
    rcases answer with e | kind
    · exact trivial
    · cases kind <;> exact trivial
  exact ⟨(congrArg Prod.fst hrun).symm, honly.goes h⟩

theorem looks_of_idle {res : Except SourceError Fetched}
    (hidle : isFetched r w = true ∨ Format.ofUrl? a.url = none)
    (h : (fetch a r r.record).run.Goes o w res tr w') : ∀ x ∈ tr, Looks x.call := by
  obtain ⟨there, w₁, look, rest, hlook, h₁, rfl⟩ := h.of_attempt_lift_bind
  obtain ⟨hthere, hlooks⟩ := goes_isComplete hlook
  have hrest : ∀ x ∈ rest, Looks x.call := by
    cases hcase : there with
    | true =>
        rw [hcase] at h₁
        obtain ⟨_, w₂, said, tr₂, hsaid, h₂, rfl⟩ := h₁.of_attempt_lift_bind
        obtain ⟨-, rfl, -⟩ := h₂.of_pure
        rw [hsaid.of_ask.2]
        rintro x (_ | ⟨_, hx⟩)
        · exact .log ..
        · contradiction
    | false =>
        have hnone : Format.ofUrl? a.url = none :=
          hidle.resolve_left (by rw [← hthere, hcase]; decide)
        rw [hcase] at h₁
        simp only [Bool.false_eq_true, if_false, hnone] at h₁
        obtain ⟨-, rfl, -⟩ := h₁.of_pure
        exact nofun
  intro x hx
  rcases List.mem_append.mp hx with hx | hx
  · exact hlooks x hx
  · exact hrest x hx

/-- The calls of a fetch in two parts: those that get ready, with one download at
most, and those that unpack the file, of which there are none unless a file was
received that can be trusted. -/
structure Parts (a : SourceArchive) (r : Root) (ready rest : List Answered) : Prop where
  prepares : ∀ x ∈ ready, Prepares r x.call
  asked : sends ready = [] ∨ ∃ url, Url.ofText? a.url = some url ∧ Requests url (sends ready)
  own : ∀ x ∈ rest, x.call.IsOwn
  trusted : rest ≠ [] → ∃ file, received? (sends ready) = some file ∧ Trusted a file

theorem Parts.of_own {ready : List Answered} (hprepares : ∀ x ∈ ready, Prepares r x.call)
    (hown : ∀ x ∈ ready, x.call.IsOwn) : Parts a r ready [] :=
  ⟨hprepares, .inl (sends_eq_nil hown), nofun, fun h => absurd rfl h⟩

/-- Calls that ask for nothing may come before. -/
theorem Parts.cons {before ready rest : List Answered} (h : Parts a r ready rest)
    (hprepares : ∀ x ∈ before, Prepares r x.call) (hown : ∀ x ∈ before, x.call.IsOwn) :
    Parts a r (before ++ ready) rest := by
  have hsends : sends (before ++ ready) = sends ready := by
    rw [sends_append, sends_eq_nil hown, List.nil_append]
  refine ⟨fun x hx => ?_, hsends ▸ h.asked, h.own, hsends ▸ h.trusted⟩
  rcases List.mem_append.mp hx with hx | hx
  · exact hprepares x hx
  · exact h.prepares x hx

theorem parts_of_unpackTrusted {res : Except SourceError Fetched} {ready : List Answered}
    (h : (unpackTrusted a r f file).run.Goes o w res tr w')
    (hprepares : ∀ x ∈ ready, Prepares r x.call)
    (hasked : sends ready = [] ∨ ∃ url,
      Url.ofText? a.url = some url ∧ Requests url (sends ready))
    (hfile : received? (sends ready) = some file) : Parts a r ready tr := by
  by_cases htrusted : Trusted a file
  · rw [unpackTrusted, checkDigest_of_trusted htrusted, pure_bind] at h
    refine ⟨hprepares, hasked, ?_, fun _ => ⟨file, hfile, htrusted⟩⟩
    exact fun x hx =>
      ((withStaging_onlyPlain fun staging => unpackSources_onlyPlain ..).goes h x hx).isOwn
  · simp only [Trusted, not_forall] at htrusted
    obtain ⟨expected, hexpected, hother⟩ := htrusted
    rw [unpackTrusted, checkDigest_of_not_says hexpected hother] at h
    obtain ⟨-, rfl, -⟩ := h.of_pure
    exact ⟨hprepares, hasked, nofun, fun hne => absurd rfl hne⟩

theorem parts_of_fetch {res : Except SourceError Fetched}
    (h : (fetch a r r.record).run.Goes o w res tr w') :
    ∃ ready rest, tr = ready ++ rest ∧ Parts a r ready rest := by
  by_cases hidle : isFetched r w = true ∨ Format.ofUrl? a.url = none
  · have hlooks := looks_of_idle hidle h
    exact ⟨tr, [], (List.append_nil tr).symm,
      .of_own (fun x hx => (hlooks x hx).prepares) fun x hx =>
      (hlooks x hx).isOwn⟩
  · obtain ⟨hmissing, hformat⟩ := not_or.mp hidle
    obtain ⟨f, hformat⟩ := Option.ne_none_iff_exists'.mp hformat
    obtain ⟨there, w₁, look, tr₁, hlook, h₁, rfl⟩ := h.of_attempt_lift_bind
    obtain ⟨hthere, hlooks⟩ := goes_isComplete hlook
    rw [Bool.not_eq_true] at hmissing
    -- Looking at the record goes in front, and the parts are those of the rest.
    suffices hrest : ∃ ready rest, tr₁ = ready ++ rest ∧ Parts a r ready rest by
      obtain ⟨ready, rest, rfl, hparts⟩ := hrest
      exact ⟨look ++ ready, rest, (List.append_assoc ..).symm,
        hparts.cons (fun x hx => (hlooks x hx).prepares) fun x hx => (hlooks x hx).isOwn⟩
    rw [hthere, hmissing] at h₁
    simp only [Bool.false_eq_true, if_false, hformat] at h₁
    have hmaking : ∀ {res tr w'}, (orFail (makeDirs r.path)).run.Goes o w₁ res tr w' →
        ∀ x ∈ tr, Making (r.path :: ancestors r.path) x.call :=
      fun hgoes => ((makeDirs_only r.path).adapt _).goes hgoes
    rcases h₁.of_attempt_bind with ⟨e, rfl, hroot⟩ | ⟨_, m, made, tr₂, hroot, h₂, rfl⟩
    · exact ⟨tr₁, [], (List.append_nil _).symm,
        .of_own (fun x hx => .making (hmaking hroot x hx)) fun x hx =>
        (isPlain_of_making (hmaking hroot x hx)).isOwn⟩
    suffices hrest : ∃ ready rest, tr₂ = ready ++ rest ∧ Parts a r ready rest by
      obtain ⟨ready, rest, rfl, hparts⟩ := hrest
      exact ⟨made ++ ready, rest, (List.append_assoc ..).symm,
        hparts.cons (fun x hx => .making (hmaking hroot x hx))
          fun x hx => (isPlain_of_making (hmaking hroot x hx)).isOwn⟩
    have hload : ∀ {res tr w'}, (download a.url).run.Goes o m res tr w' →
        ∀ x ∈ tr, Prepares r x.call :=
      fun hgoes => (download_only .send .log a.url).goes hgoes
    rcases h₂.of_attempt_bind with ⟨e, rfl, hfails⟩ | ⟨file, d, load, tr₃, hgot, h₃, rfl⟩
    · exact ⟨tr₂, [], (List.append_nil _).symm, hload hfails,
        (sends_of_download hfails).1, nofun,
        fun hne => absurd rfl hne⟩
    · obtain ⟨hasked, hres, -⟩ := sends_of_download hgot
      exact ⟨load, tr₃, rfl, parts_of_unpackTrusted h₃ (hload hgot) hasked hres.symm⟩

/-- **The checks of a fetch.** One file is asked for at most, and none where the sources are
there or the address does not tell how they are packed; then nothing is made either. Unless a
file is received that has the digest expected of it, no calls are made but those that get
ready. And what a fetch comes to is told by the first check that fails. -/
theorem fetch_checks (o : Outside σ) (a : SourceArchive) (r : Root) (w : World σ) :
    let tr := (fetch a r r.record).run.trace o w
    (sends tr = [] ∨ ∃ url, Url.ofText? a.url = some url ∧ Requests url (sends tr)) ∧
      (isFetched r w = true ∨ (∀ f, ¬ Names a.url f) →
        sends tr = [] ∧ (∀ x ∈ tr, Looks x.call) ∧ (fetched o a r w).2.tree = w.tree) ∧
      ((∀ file, received? (sends tr) = some file → ¬ Trusted a file) →
        ∀ x ∈ tr, Prepares r x.call) ∧
      (∀ res, (fetched o a r w).1 = res ↔ Verdict o a r w res) ∧
      ∀ file, (Sha256.hex file).toList.length = 64 ∧
        ∀ c ∈ (Sha256.hex file).toList, c ∈ "0123456789abcdef".toList := by
  intro tr
  have hgoes := Goes.run o (fetch a r r.record).run w
  obtain ⟨ready, rest, heq, hparts⟩ := parts_of_fetch hgoes
  have hsends : sends tr = sends ready := by
    rw [show tr = ready ++ rest from heq, sends_append, sends_eq_nil hparts.own,
      List.append_nil]
  refine ⟨hsends ▸ hparts.asked, fun hidle => ?_, fun hbad => ?_, fun res => fetched_iff,
    fun file => ?_⟩
  · rw [← Format.ofUrl?_eq_none_iff] at hidle
    have hlooks := looks_of_idle hidle hgoes
    obtain ⟨⟨htree, -⟩, -⟩ := (throughout_idle (o := o) hidle).at_end
    exact ⟨sends_eq_nil fun x hx => (hlooks x hx).isOwn, hlooks, htree⟩
  · have hnone : rest = [] := by
      by_contra hne
      obtain ⟨file, hfile, htrusted⟩ := hparts.trusted hne
      exact hbad file (by rw [hsends, hfile]) htrusted
    rw [show tr = ready ++ rest from heq, hnone, List.append_nil]
    exact hparts.prepares
  · exact ⟨Sha256.length_hex file, fun c => Hex.mem_digits_of_mem_encode⟩

end LlvmBootstrap.Sources
