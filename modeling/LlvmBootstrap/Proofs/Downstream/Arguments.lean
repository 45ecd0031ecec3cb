import LlvmBootstrap.Proofs.Run.Course
import LlvmBootstrap.Proofs.Text.Utf8

/-!
The command line of a project's build tool. Up to the first `--` it is made by the action, the
profile and the target, and behind that it is the arguments of the request, whatever they are.
No word of the first part is `--` itself, so where the second part begins can be told from the
line.
-/

namespace LlvmBootstrap

namespace Command

/-- The word behind which the build tool passes on what it is given. -/
def separator : Bytes := Utf8.encode "--"

/-- The arguments up to the first `--`. -/
def leading (c : Command) : List Bytes := c.args.takeWhile (· ≠ separator)

def trailing (c : Command) : List Bytes := c.args.dropWhile (· ≠ separator)

/-- Words without a separator come before it, and all from the
separator on comes behind them. -/
theorem leading_trailing_of_args {c : Command} {own passed : List Bytes}
    (hown : separator ∉ own) (hpassed : ∀ x ∈ passed.head?, x = separator)
    (h : c.args = own ++ passed) :
    c.leading = own ∧ c.trailing = passed := by
  have hall : ∀ x ∈ own, decide (x ≠ separator) = true := fun x hx =>
    decide_eq_true fun heq => hown (heq ▸ hx)
  rw [leading, trailing, h, List.takeWhile_append_of_pos hall,
    List.dropWhile_append_of_pos hall]
  cases passed with
  | nil => simp
  | cons x rest =>
      obtain rfl : x = separator := hpassed x rfl
      simp

theorem args_eq_iff {c c' : Command} :
    c.args = c'.args ↔ c.leading = c'.leading ∧ c.trailing = c'.trailing := by
  refine ⟨fun h => ?_, fun ⟨hl, ht⟩ => ?_⟩
  · rw [leading, leading, trailing, trailing, h]
    exact ⟨rfl, rfl⟩
  · calc c.args = c.leading ++ c.trailing := List.takeWhile_append_dropWhile.symm
      _ = c'.leading ++ c'.trailing := by rw [hl, ht]
      _ = c'.args := List.takeWhile_append_dropWhile

end Command

namespace Downstream

open Command

def options (action : Action) (release : Bool) (triple? : Option String) : List String :=
  (if action.needsTarget then triple?.toList.flatMap (["--target", ·]) else []) ++
    (if release && action.takesProfile then ["--release"] else [])

/-- What the build tool is told besides the arguments of a request. -/
def words (action : Action) (release : Bool) (triple? : Option String) : List String :=
  action.subcommand :: options action release triple?

def passedOn (args : List String) : List String := if args = [] then [] else "--" :: args

variable {d d' : Downstream} {p : Platform} {q q' : Request} {install install' : Path}
  {c c' : Command} {e : PlatformError} {action action' : Action} {release release' : Bool}
  {triple? : Option String}

theorem eq_of_arguments {args : List String} (h : d.arguments q = .ok args) :
    args = words q.action q.release (d.host.triple q.arch).toOption ++ passedOn q.args := by
  have hrest : (if q.args.isEmpty then [] else "--" :: q.args) = passedOn q.args := by
    cases hq : q.args <;> simp [passedOn]
  rw [arguments, hrest] at h
  rw [words, options]
  cases hn : q.action.needsTarget with
  | false =>
      rw [hn] at h
      exact (Except.ok.inj h).symm
  | true =>
      rw [hn] at h
      cases ht : d.host.triple q.arch with
      | error e =>
          rw [ht] at h
          contradiction
      | ok t =>
          rw [ht] at h
          exact (Except.ok.inj h).symm

theorem args_of_command (h : d.command q install = .ok c) :
    c.args = (words q.action q.release (d.host.triple q.arch).toOption).map Utf8.encode ++
      (passedOn q.args).map Utf8.encode := by
  obtain ⟨args, hargs, rfl⟩ := command_eq_ok_iff.mp h
  rw [← List.map_append, ← eq_of_arguments hargs]
  rfl

/-! ### The words of the first part -/

def marks : List String := ["--", "--target", "--release"]

theorem triple_not_mem_marks (p : Platform) (a : Arch) :
    ∀ t ∈ (p.triple a).toOption, t ∉ marks := by
  cases p with
  | unix u =>
      rcases u with ⟨_ | _, _, _⟩ <;> cases a <;>
        simp [marks, Platform.triple, Except.toOption]
  | msvc m => cases a <;> simp [marks, Platform.triple, Except.toOption]

theorem subcommand_not_mem_marks (action : Action) : action.subcommand ∉ marks := by
  cases action <;> decide

theorem subcommand_injective : Function.Injective Action.subcommand := fun a a' h => by
  have htext := congrArg Action.ofText? h
  rw [Action.ofText?_subcommand, Action.ofText?_subcommand] at htext
  exact Option.some.inj htext

/-- How often a mark stands among the words. -/
theorem count_words {x : String} (hx : x ∈ marks) (htriple : ∀ t ∈ triple?, t ∉ marks) :
    (words action release triple?).count x =
      (if action.needsTarget ∧ triple?.isSome ∧ "--target" = x then 1 else 0) +
        if release ∧ action.takesProfile ∧ "--release" = x then 1 else 0 := by
  have haction : action.subcommand ≠ x := fun h => subcommand_not_mem_marks action (h ▸ hx)
  have htarget :
    (if action.needsTarget then triple?.toList.flatMap (["--target", ·]) else []).count x =
      if action.needsTarget ∧ triple?.isSome ∧ "--target" = x then 1 else 0 := by
    cases action.needsTarget with
    | false => simp
    | true =>
        cases triple? with
        | none => simp
        | some t =>
            have ht : t ≠ x := fun h => htriple t rfl (h ▸ hx)
            simp [List.count_cons, ht]
  have hprofile : (if release && action.takesProfile then ["--release"] else []).count x =
      if release ∧ action.takesProfile ∧ "--release" = x then 1 else 0 := by
    cases release with
    | false => simp
    | true =>
        cases action.takesProfile with
        | false => simp
        | true => simp [List.count_cons]
  rw [words, List.count_cons_of_ne haction, options, List.count_append, htarget, hprofile]

/-- The action and, where it counts, the profile can be read off the words. -/
theorem words_inj (htriple : ∀ t ∈ triple?, t ∉ marks) :
    words action release triple? = words action' release' triple? ↔
      action = action' ∧ (release = release' ∨ action = .format) := by
  constructor
  · intro h
    obtain rfl : action = action' := subcommand_injective (List.cons.inj h).1
    have hcount := congrArg (List.count "--release") h
    rw [count_words (by decide) htriple, count_words (by decide) htriple] at hcount
    refine ⟨rfl, ?_⟩
    cases action <;> cases release <;> cases release' <;>
      simp [Action.takesProfile] at hcount ⊢
  · rintro ⟨rfl, rfl | rfl⟩
    · rfl
    · simp [words, options, Action.takesProfile]

/-! ### The two parts of a command line -/

theorem parts_of_command (hd : d.host = p) (h : d.command q install = .ok c) :
    c.leading = (words q.action q.release (p.triple q.arch).toOption).map Utf8.encode ∧
      c.trailing = (passedOn q.args).map Utf8.encode := by
  have hargs := args_of_command h
  rw [hd] at hargs
  refine leading_trailing_of_args ?_ ?_ hargs
  · rw [separator, List.mem_map_of_injective Utf8.encode_injective, ← List.count_eq_zero,
      count_words (by decide) (triple_not_mem_marks p q.arch)]
    simp
  · intro x hx
    rw [passedOn] at hx
    split at hx
    · contradiction
    · exact (Option.some.inj hx).symm

theorem passedOn_inj {xs ys : List String} : passedOn xs = passedOn ys ↔ xs = ys := by
  cases xs <;> cases ys <;> simp [passedOn]

theorem map_encode_inj {xs ys : List String} :
    xs.map Utf8.encode = ys.map Utf8.encode ↔ xs = ys :=
  (List.map_injective_iff.mpr Utf8.encode_injective).eq_iff

/-- Where there is a command for an action that needs a target, there
is a name for the target. -/
theorem exists_triple_of_command (h : d.command q install = .ok c)
    (hneeds : q.action.needsTarget = true) : ∃ t, d.host.triple q.arch = .ok t := by
  cases ht : d.host.triple q.arch with
  | ok t => exact ⟨t, rfl⟩
  | error e =>
      rw [command_eq_error_iff.mpr ⟨hneeds, ht⟩] at h
      contradiction

theorem count_leading {x : String} (hd : d.host = p) (h : d.command q install = .ok c)
    (hx : x ∈ marks) :
    c.leading.count (Utf8.encode x) =
      (if q.action.needsTarget ∧ "--target" = x then 1 else 0) +
      if q.release ∧ q.action.takesProfile ∧ "--release" = x then 1 else 0 := by
  have htriple := triple_not_mem_marks p q.arch
  rw [(parts_of_command hd h).1, List.count_map_of_injective _ _ Utf8.encode_injective,
    count_words hx htriple]
  cases hneeds : q.action.needsTarget with
  | false => simp
  | true =>
      obtain ⟨t, ht⟩ := exists_triple_of_command h hneeds
      rw [hd] at ht
      change p.triple q.arch = .ok t at ht
      simp [ht, Except.toOption]

theorem takesProfile_iff : action.takesProfile = true ↔ action ≠ .format := by
  cases action <;> simp [Action.takesProfile]

theorem needsTarget_iff : action.needsTarget = true ↔ action = .build ∨ action = .run := by
  cases action <;> simp [Action.needsTarget]

/-- A command line says all that it is made of: two of one platform and architecture are the
same exactly if action and arguments are and, where the action takes one, the profile. Up to
the first `--` it is told by action, profile, platform and architecture, with one target for
what is made for a target and one `--release` for what is made optimised; from there on it is
the arguments as they were given. There is none only for want of a name for the target, and
then nothing at all is done. -/
theorem command_unambiguous (p : Platform) (d d' : Downstream) (hd : d.host = p)
    (hd' : d'.host = p) (q q' : Request) (harch : q'.arch = q.arch) (install install' : Path) :
    (∀ c c', d.command q install = .ok c → d'.command q' install' = .ok c' →
      (c.args = c'.args ↔ q.action = q'.action ∧ q.args = q'.args ∧
        (q.release = q'.release ∨ q.action = .format)) ∧
      (q.action = q'.action → q.release = q'.release → c.leading = c'.leading)) ∧
    (∀ c, d.command q install = .ok c →
      c.leading.count (Utf8.encode "--target") =
        (if q.action = .build ∨ q.action = .run then 1 else 0) ∧
      (q.action = .build ∨ q.action = .run → ∃ t, p.triple q.arch = .ok t ∧
        ["--target", t].map Utf8.encode <:+: c.leading) ∧
      c.leading.count (Utf8.encode "--release") =
        (if q.release = true ∧ q.action ≠ .format then 1 else 0) ∧
      c.trailing = if q.args = [] then [] else separator :: q.args.map Utf8.encode) ∧
    ∀ e, (d.command q install = .error e ↔
        (q.action = .build ∨ q.action = .run) ∧ p.triple q.arch = .error e) ∧
      (d.command q install = .error e →
        ∀ t, (d.invoke q install).start t = .done (.error (.platform e), t)) := by
  refine ⟨fun c c' h h' => ?_, fun c h => ?_, fun e => ⟨?_, fun h t => ?_⟩⟩
  · obtain ⟨hlead, htrail⟩ := parts_of_command hd h
    obtain ⟨hlead', htrail'⟩ := parts_of_command hd' h'
    rw [harch] at hlead'
    refine ⟨?_, fun haction hrelease => by rw [hlead, hlead', haction, hrelease]⟩
    rw [args_eq_iff, hlead, hlead', htrail, htrail', map_encode_inj,
      map_encode_inj, passedOn_inj, words_inj (triple_not_mem_marks p q.arch)]
    tauto
  · refine ⟨?_, fun hq => ?_, ?_, ?_⟩
    · simp [count_leading hd h (x := "--target") (by decide), needsTarget_iff]
    · obtain ⟨t, ht⟩ := exists_triple_of_command h (needsTarget_iff.mpr hq)
      rw [hd] at ht
      change p.triple q.arch = .ok t at ht
      refine ⟨t, ht, ?_⟩
      rw [(parts_of_command hd h).1, words, options, if_pos (needsTarget_iff.mpr hq), ht]
      exact ⟨[_], _, rfl⟩
    · simp [count_leading hd h (x := "--release") (by decide), takesProfile_iff]
    · rw [(parts_of_command hd h).2, passedOn]
      split <;> rfl
  · rw [command_eq_error_iff, needsTarget_iff, hd]
    rfl
  · rw [start_invoke, h]
    rfl

def oneTarget : Platform := .unix ⟨.darwin, .empty, none⟩

def tool : Downstream := ⟨"cargo", "LLVM_PREFIX", oneTarget⟩

def dashes (release : Bool) (args : List String) : Request := ⟨.x64, release, .run, args⟩

theorem command_unambiguous_dashes :
    tool.host = oneTarget ∧ ∃ c c',
      tool.command (dashes true ["--", "-v"]) "/p" = .ok c ∧
      tool.command (dashes false ["--release", "--", "-v"]) "/p" = .ok c' ∧
      c.args ≠ c'.args ∧ c.leading.count (Utf8.encode "--release") = 1 ∧
      c'.leading.count (Utf8.encode "--release") = 0 ∧
      c.trailing = ["--", "--", "-v"].map Utf8.encode ∧
      tool.command ⟨.x86, false, .build, []⟩ "/p" =
        .error (.unsupportedArch "darwin" .x86) ∧
      ∀ t, (tool.invoke ⟨.x86, false, .build, []⟩ "/p").start t =
        .done (.error (.platform (.unsupportedArch "darwin" .x86)), t) := by
  obtain ⟨hsame, heach, -⟩ := command_unambiguous oneTarget tool tool rfl rfl
    (dashes true ["--", "-v"]) (dashes false ["--release", "--", "-v"]) rfl "/p" "/p"
  obtain ⟨-, hother, -⟩ := command_unambiguous oneTarget tool tool rfl rfl
    (dashes false ["--release", "--", "-v"]) (dashes true []) rfl "/p" "/p"
  obtain ⟨-, -, hnone⟩ := command_unambiguous oneTarget tool tool rfl rfl
    ⟨.x86, false, .build, []⟩ ⟨.x86, false, .build, []⟩ rfl "/p" "/p"
  have hrefused := (hnone (.unsupportedArch "darwin" .x86)).1.mpr ⟨.inl rfl, rfl⟩
  refine ⟨rfl, _, _, rfl, rfl, fun hargs => ?_, ?_, ?_, ?_, hrefused, (hnone _).2 hrefused⟩
  · exact absurd ((hsame _ _ rfl rfl).1.mp hargs).2.1 (by decide)
  · exact (heach _ rfl).2.2.1
  · exact (hother _ rfl).2.2.1
  · exact (heach _ rfl).2.2.2

end Downstream

end LlvmBootstrap
