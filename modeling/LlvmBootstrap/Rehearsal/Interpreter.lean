import LlvmBootstrap.Rehearsal.Builtins
import LlvmBootstrap.Rehearsal.Programs

/-!
Running scripts. Every step takes from a budget, so that a script that would go on for ever
comes to an end; one that runs out of it is killed.
-/

namespace LlvmBootstrap.Rehearsal

/-! ### Fields -/

/-- The words that an expansion has given so far, the last one first,
and the one being put together. -/
structure Fields where
  done : List Chars
  current : Option Chars

namespace Fields

def empty : Fields := ⟨[], none⟩

/-- Adds a text to the current word. -/
def glue (f : Fields) (cs : Chars) : Fields :=
  { f with current := some (f.current.getD [] ++ cs) }

/-- Ends the current word, if there is one. -/
def close (f : Fields) : Fields := ⟨f.current.toList ++ f.done, none⟩

/-- Adds a text whose blanks end words. -/
def split (f : Fields) (cs : Chars) : Fields :=
  cs.foldl (fun f c => if " \t\n".toList.contains c then f.close else f.glue [c]) f

/-- Adds several texts, each but the first as a new word. -/
def glueAll (f : Fields) : List Chars → Fields
  | [] => f
  | [a] => f.glue a
  | a :: rest => (f.glue a).close.glueAll rest

def toList (f : Fields) : List Chars := f.close.done.reverse

end Fields

/-! ### Patterns -/

/-- Whether a text has the form of a pattern of `*`, `?` and plain characters. -/
def fits : Chars → Chars → Bool
  | [], cs => cs = []
  | '*' :: ps, [] => fits ps []
  | '*' :: ps, c :: cs => fits ps (c :: cs) || fits ('*' :: ps) cs
  | '?' :: ps, _ :: cs => fits ps cs
  | p :: ps, c :: cs => p = c && fits ps cs
  | _ :: _, [] => false
termination_by ps cs => (cs.length, ps.length)

/-- A text without what fits a pattern at its end, the shortest or the longest such part. -/
def withoutEnd (longest : Bool) (pattern cs : Chars) : Chars :=
  let cuts := (List.range (cs.length + 1)).filter fun i => fits pattern (cs.drop i)
  match (if longest then cuts.head? else cuts.getLast?) with
  | some i => cs.take i
  | none => cs

/-- A text without what fits a pattern at its front. -/
def withoutFront (longest : Bool) (pattern cs : Chars) : Chars :=
  let cuts := (List.range (cs.length + 1)).filter fun i => fits pattern (cs.take i)
  match (if longest then cuts.getLast? else cuts.head?) with
  | some i => cs.drop i
  | none => cs

/-! ### Outputs -/

namespace Run

/-- Where a shell looks for programs. -/
def searched : Run Chars := do
  return ((← get).value? "PATH".toList).getD
    "/usr/local/sbin:/usr/local/bin:/usr/sbin:/usr/bin:/sbin:/bin".toList

/-- Runs a part of a shell that leaves the shell's own values alone. If it is killed the shell
is too, unless there is a code to stand for that. -/
def apart (killedCode : Option Nat) (body : Run Unit) : Run Unit := fun s =>
  let (r, s') := body s
  let back := { s' with
    cwd := s.cwd, vars := s.vars, exported := s.exported, name := s.name, args := s.args
    sinks := s.sinks }
  match r, killedCode with
  | .error .killed, none => (.error .killed, back)
  | .error .killed, some code => (.ok (), { back with status := code })
  | _, _ => (.ok (), back)

/-- What something writes to its first output, and the shell as it was before. -/
def collected (body : Run Unit) : Run (Chars × Shell) := do
  let before ← get
  set { before with out := [], sinks := (1, .out) :: before.sinks.filter (·.1 ≠ 1) }
  body
  let s ← get
  set { s with out := before.out, sinks := before.sinks }
  return (written s.out, before)

/-- Opens what redirections name; gives false if that cannot be done. -/
def openSink (fd : Nat) (append : Bool) (p : Chars) : Run Bool := do
  let s ← get
  let point := fun (tree : Tree) (sink : Sink) =>
    set { s with tree, sinks := (fd, sink) :: s.sinks.filter (·.1 ≠ fd) }
  if p = "/dev/null".toList then
    point s.tree .nowhere
    return true
  match s.tree.openFile s.cwd (path p) 0o666 with
  | .ok (id, tree) =>
    point (if append then tree else tree.setContent id []) (.file id)
    return true
  | .error e =>
    let why := if e = .notFound then "Directory nonexistent".toList else words e
    complain 2 ["cannot create ".toList, p, ": ".toList, why]
    return false

def openInput (p : Chars) : Run Bool := do
  let s ← get
  if p = "/dev/null".toList then
    set { s with input := [] }
    return true
  match s.tree.readFile s.cwd (path p) with
  | .ok content =>
    set { s with input := chars content }
    return true
  | .error e =>
    let why := if e = .notFound then "No such file".toList else words e
    complain 2 ["cannot open ".toList, p, ": ".toList, why]
    return false

/-- Points one output where another one goes; `-` closes it. -/
def copySink (fd : Nat) (other : Chars) : Run Bool := do
  modify fun s =>
    let sink := if other = ['-'] then none else s.sinks.lookup (Arithmetic.naturalOf other)
    { s with sinks := (sink.map fun k => (fd, k)).toList ++ s.sinks.filter (·.1 ≠ fd) }
  return true

/-! ### Scripts -/

def isOutput : Part → Bool
  | .output _ _ => true
  | _ => false

mutual

/-- The text of a part of a word. -/
def textOf : Nat → Part → Run Chars
  | 0, _ => throw .killed
  | fuel + 1, part => do
    match part with
    | .plain cs | .exact cs => return cs
    | .value _ name none => return ((← get).value? name).getD []
    | .value _ name (some (op, w)) => operated fuel name op w
    | .output _ script =>
      let (cs, _) ← collected (apart none (interpret fuel script))
      return (cs.reverse.dropWhile (· = '\n')).reverse
    | .number expression =>
      let s ← get
      let plain ← joined fuel
        ((inQuotes? (expression.length + 2) (expression ++ ['"'])).elim [] (·.1))
      match Arithmetic.value? (fun n => Arithmetic.integerOf ((s.value? n).getD [])) plain with
      | some n => return (toString n).toList
      | none =>
        complain 2 ["arithmetic expression: expecting primary: \"".toList, plain, ['"']]
        throw .exit

/-- The value of a parameter with an operator behind its name. -/
def operated : Nat → Chars → Chars → Chars → Run Chars
  | 0, _, _, _ => throw .killed
  | fuel + 1, name, op, w => do
    let value := (← get).value? name
    let other := joined fuel ((inQuotes? (w.length + 2) (w ++ ['"'])).elim [] (·.1))
    let usable := if op.head? = some ':' then value.filter (· ≠ []) else value
    match op.getLast?, usable with
    | some '-', some v => return v
    | some '-', none => other
    | some '+', some _ => other
    | some '+', none => return []
    | some '=', some v => return v
    | some '=', none => do
      let v ← other
      modify (·.set name v)
      return v
    | some '?', some v => return v
    | some '?', none => do
      let v ← other
      complain 2 [name, ": ".toList, if v = [] then "parameter not set".toList else v]
      throw .exit
    | some '%', _ => do
      let v ← other
      let long := v.head? = some '%'
      return withoutEnd long (if long then v.tail else v) (value.getD [])
    | some '#', _ => do
      if op.length = 3 then return digitsOf (value.getD []).length
      let v ← other
      let long := v.head? = some '#'
      return withoutFront long (if long then v.tail else v) (value.getD [])
    | _, _ => return value.getD []

/-- The text of a word that is not split. -/
def joined : Nat → Word → Run Chars
  | 0, _ => throw .killed
  | _, [] => return []
  | fuel + 1, p :: ps => do
    let cs ← textOf fuel p
    return cs ++ (← joined fuel ps)

/-- Adds the words that the parts of a word amount to. -/
def fieldsOf : Nat → Fields → Word → Run Fields
  | 0, _, _ => throw .killed
  | _, f, [] => return f
  | fuel + 1, f, p :: ps => do
    match p with
    | .value true ['@'] none => fieldsOf fuel (f.glueAll (← get).args) ps
    | .value false _ _ | .output false _ =>
      let cs ← textOf fuel p
      fieldsOf fuel (f.split cs) ps
    | p =>
      let cs ← textOf fuel p
      fieldsOf fuel (f.glue cs) ps

/-- The words of a command, after expansion. -/
def expanded : Nat → List Word → Run (List Chars)
  | 0, _ => throw .killed
  | _, [] => return []
  | fuel + 1, w :: ws => do
    -- all arguments in quotes are no word if there are none, unlike other quoted words
    let noArgs := (← get).args = []
    let alone : Word := [.exact [], .value true ['@'] none]
    let f ← if w = alone ∧ noArgs then pure Fields.empty else fieldsOf fuel .empty w
    return f.toList ++ (← expanded fuel ws)

/-- Does what redirections ask for; gives false if one of them fails. -/
def redirected : Nat → List Redirect → Run Bool
  | 0, _ => throw .killed
  | _, [] => return true
  | fuel + 1, r :: rs => do
    let done ← match r with
      | .toFile fd append w => do openSink fd append (← joined fuel w)
      | .fromFile w => do openInput (← joined fuel w)
      | .toFd fd w => do copySink fd (← joined fuel w)
    if done then redirected fuel rs else return false

/-- Runs something with redirections. -/
def withRedirects : Nat → List Redirect → Run Unit → Run Unit
  | 0, _, _ => throw .killed
  | fuel + 1, rs, body => do
    if rs = [] then body
    else
      let before ← get
      if ← redirected fuel rs then body
      modify fun s => { s with sinks := before.sinks }
      if rs.any fun r => match r with | .fromFile _ => true | _ => false then
        modify fun s => { s with input := before.input }

/-- Sets variables in turn. -/
def settle : Nat → List (Chars × Word) → Run Unit
  | 0, _ => throw .killed
  | _, [] => return ()
  | fuel + 1, (name, w) :: rest => do
    let v ← joined fuel w
    modify (·.set name v)
    settle fuel rest

/-- Runs a program of the system, whose arguments start with the name it is known by. -/
def runProgram : Nat → Chars → List Chars → Run Unit
  | 0, _, _ => throw .killed
  | fuel + 1, name, args => do
    if isShell name then
      let vars := (← get).environ
      modify fun s => { s with vars, exported := vars.keys }
      runShell fuel args
    else
      match utilities.lookup (String.ofList name) with
      | some f => f args.tail
      | none => setStatus 0

/-- Runs a shell as a program. -/
def runShell : Nat → List Chars → Run Unit
  | 0, _ => throw .killed
  | fuel + 1, args => do
    let (name, args) := (args.headD [], args.tail)
    modify fun s => { s with name, args := [], status := 0 }
    let home ← get
    set ((home.set "PWD".toList home.here).share "PWD".toList)
    let flags := (args.takeWhile isOption).flatten
    match args.dropWhile isOption with
    | [] =>
      if flags.contains 'c' then complain 2 ["-c requires an argument".toList]
      else
        let script := (← get).input
        modify fun s => { s with input := [] }
        interpret fuel script
    | w :: rest =>
      if flags.contains 'c' then
        modify fun s => { s with name := rest.headD name, args := rest.tail }
        interpret fuel w
      else
        let s ← get
        match s.tree.readFile s.cwd (path w) with
        | .ok content =>
          modify fun s => { s with name := w, args := rest }
          interpret fuel (chars content)
        | .error e =>
          let why := if e = .notFound then "No such file".toList else words e
          say [name, ": 0: cannot open ".toList, w, ": ".toList, why]
          setStatus 2

/-- Runs a command by its words. -/
def runWords : Nat → List Chars → Run Unit
  | 0, _ => throw .killed
  | _, [] => return ()
  | fuel + 1, w :: ws => do
    if w = "exec".toList ∧ ws ≠ [] then
      runWords fuel ws
      throw .exit
    match builtins.lookup (String.ofList w) with
    | some f => f ws
    | none =>
      let s ← get
      match firstProgram s.tree s.cwd true (w :: ws) .notFound (candidates (← searched) w) with
      | .ok (name, args) => apart (some 137) (runProgram fuel name args)
      | .error .permission => complain 126 [w, ": Permission denied".toList]
      | .error _ => complain 127 [w, ": not found".toList]

def exec : Nat → Script → Run Unit
  | 0, _ => throw .killed
  | fuel + 1, script => do
    match script with
    | .idle => setStatus 0
    | .simple settings ws rs =>
      let ws ← expanded fuel ws
      withRedirects fuel rs do
        if ws = [] then
          let asked := settings.any fun v => v.2.any isOutput
          settle fuel settings
          if !asked then setStatus 0
        else
          -- settings in front of a command are for that command alone
          let before ← get
          settle fuel settings
          modify fun s => settings.foldl (fun s v => s.share v.1) s
          runWords fuel ws
          if settings ≠ [] then
            modify fun s => { s with vars := before.vars, exported := before.exported }
    | .next a b =>
      exec fuel a
      exec fuel b
    | .both a b =>
      exec fuel a
      if (← get).status = 0 then exec fuel b
    | .either a b =>
      exec fuel a
      if (← get).status ≠ 0 then exec fuel b
    | .negated a =>
      exec fuel a
      modify fun s => { s with status := if s.status = 0 then 1 else 0 }
    | .pipe a b =>
      let (input, before) ← collected (apart none (exec fuel a))
      modify fun s => { s with input }
      apart none (exec fuel b)
      modify fun s => { s with input := before.input }
    | .branch condition yes no =>
      exec fuel condition
      if (← get).status = 0 then exec fuel yes else exec fuel no
    | .loop untilTrue condition body => loop fuel untilTrue condition body 0
    | .each name ws body =>
      let values ← match ws with
        | some ws => expanded fuel ws
        | none => pure (← get).args
      setStatus 0
      each fuel name body values
    | .choice w ps yes no =>
      let cs ← joined fuel w
      if ← fitsOne fuel cs ps then exec fuel yes else exec fuel no
    | .group false body rs => withRedirects fuel rs (exec fuel body)
    | .group true body rs => withRedirects fuel rs (apart none (exec fuel body))

/-- Whether a text has the form of one of some patterns. -/
def fitsOne : Nat → Chars → List Word → Run Bool
  | 0, _, _ => throw .killed
  | _, _, [] => return false
  | fuel + 1, cs, p :: ps => do
    if fits (← joined fuel p) cs then return true
    fitsOne fuel cs ps

/-- Runs the body as long as the condition allows; `status` is that of
the last run of the body. -/
def loop : Nat → Bool → Script → Script → Nat → Run Unit
  | 0, _, _, _, _ => throw .killed
  | fuel + 1, untilTrue, condition, body, status => do
    exec fuel condition
    if ((← get).status = 0) = untilTrue then setStatus status
    else if ← goesOn (exec fuel body) then loop fuel untilTrue condition body (← get).status

def each : Nat → Chars → Script → List Chars → Run Unit
  | 0, _, _, _ => throw .killed
  | _, _, _, [] => return ()
  | fuel + 1, name, body, v :: vs => do
    modify (·.set name v)
    if ← goesOn (exec fuel body) then each fuel name body vs

/-- Reads a script and runs it. -/
def interpret : Nat → Chars → Run Unit
  | 0, _ => throw .killed
  | fuel + 1, cs => do
    match Script.read? cs with
    | some script => exec fuel script
    | none => complain 2 ["Syntax error: end of file unexpected".toList]

end

end Run

end LlvmBootstrap.Rehearsal
