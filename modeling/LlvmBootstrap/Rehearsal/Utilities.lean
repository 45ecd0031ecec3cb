import LlvmBootstrap.Rehearsal.Shell

/-!
The commands that a shell or the system brings along.
-/

namespace LlvmBootstrap.Rehearsal.Run

/-! ### Text -/

/-- The characters with an escape of one letter. -/
def escapes : List (Char × Char) :=
  [('\\', '\\'), ('a', '\x07'), ('b', '\x08'), ('f', '\x0c'), ('n', '\n'),
    ('r', '\r'), ('t', '\t'),
    ('v', '\x0b')]

def isOctal (c : Char) : Bool := '0' ≤ c && c ≤ '7'

/-- A text with its escapes replaced; `zero` says that a zero may stand in front of the three
digits of an octal number. -/
def unescape (zero : Bool) : Nat → Chars → Chars
  | 0, cs => cs
  | fuel + 1, '\\' :: c :: cs =>
    match escapes.lookup c with
    | some e => e :: unescape zero fuel cs
    | none =>
      if isOctal c then
        let cs := if zero ∧ c = '0' then cs else c :: cs
        let digits := (cs.take 3).takeWhile isOctal
        let n := digits.foldl (fun n d => n * 8 + (d.toNat - '0'.toNat)) 0
        Char.ofNat (n % 256) :: unescape zero fuel (cs.drop digits.length)
      else '\\' :: c :: unescape zero fuel cs
  | fuel + 1, c :: cs => c :: unescape zero fuel cs
  | _, [] => []

def unescaped (zero : Bool) (cs : Chars) : Chars := unescape zero (cs.length + 1) cs

/-- Prints the arguments; `escaped` says whether escapes in them are replaced. -/
def echo (escaped : Bool) (args : List Chars) : Run Unit := do
  let shown := fun (args : List Chars) =>
    if escaped then unescaped true (join args) else join args
  match args with
  | ['-', 'n'] :: args => emit 1 (shown args)
  | args => emit 1 (shown args ++ ['\n'])
  setStatus 0

/-- A text with blanks or zeros in front of it, or blanks behind it, up to a width. -/
def padded (flags : Chars) (width : Nat) (cs : Chars) : Chars :=
  if flags.contains '-' then cs ++ List.replicate (width - cs.length) ' '
  else List.replicate (width - cs.length) (if flags.contains '0' then '0' else ' ') ++ cs

/-- An argument as a directive shows it. -/
def shown (directive : Char) (arg : Chars) : Chars :=
  let n := Arithmetic.integerOf arg
  match directive with
  | 'd' | 'i' => (toString n).toList
  | 'x' => Nat.toDigits 16 n.toNat
  | 'o' => Nat.toDigits 8 n.toNat
  | 'b' => unescaped true arg
  | 'c' => arg.take 1
  | _ => arg

/-- One pass over a format; gives the text and the arguments left. -/
def formatted : Nat → Chars → List Chars → Chars × List Chars
  | fuel + 1, '%' :: '%' :: cs, args =>
    let (t, rest) := formatted fuel cs args
    ('%' :: t, rest)
  | fuel + 1, '%' :: cs, args =>
    let flags := cs.takeWhile "-0".toList.contains
    let cs := cs.drop flags.length
    let width := cs.takeWhile Char.isDigit
    match cs.drop width.length with
    | c :: cs =>
      let (t, rest) := formatted fuel cs args.tail
      (padded flags (Arithmetic.naturalOf width) (shown c (args.headD [])) ++ t, rest)
    | [] => ([], args)
  | fuel + 1, c :: cs, args =>
    let (t, rest) := formatted fuel cs args
    (c :: t, rest)
  | _, _, args => ([], args)

/-- A format is used again as long as it takes up arguments. -/
def printed (format : Chars) : Nat → List Chars → Chars
  | 0, _ => []
  | fuel + 1, args =>
    let (t, rest) := formatted (format.length + 1) format args
    if rest = [] ∨ rest.length = args.length then t else t ++ printed format fuel rest

def printf (args : List Chars) : Run Unit := do
  match args with
  | format :: args => do
    emit 1 (printed (unescaped false format) (args.length + 1) args)
    setStatus 0
  | [] => setStatus 2

/-! ### Tests -/

def unary (s : Shell) (op : String) (w : Chars) : Bool :=
  let isFull : Node → Bool
    | .file id => s.tree.content id ≠ []
    | _ => true
  match op with
  | "-n" => w ≠ []
  | "-z" => w = []
  | "-e" | "-r" | "-w" => s.finds true w fun _ => true
  | "-f" => s.finds true w fun n => n.objectKind = .file
  | "-d" => s.finds true w fun n => n.objectKind = .dir
  | "-L" | "-h" => s.finds false w fun n => n.objectKind = .link
  | "-x" => s.finds true w fun n => n.objectKind = .dir || isExecutable s.tree n
  | "-s" => s.finds true w isFull
  | _ => false

def binary (op : String) (a b : Chars) : Bool :=
  let x := Arithmetic.integerOf a
  let y := Arithmetic.integerOf b
  match op with
  | "=" => a = b
  | "!=" => a ≠ b
  | "-eq" => x = y
  | "-ne" => x ≠ y
  | "-lt" => x < y
  | "-le" => x ≤ y
  | "-gt" => x > y
  | "-ge" => x ≥ y
  | _ => false

def holds (s : Shell) : List Chars → Bool
  | [] => false
  | ['!'] :: w :: ws => !(holds s (w :: ws))
  | [w] => w ≠ []
  | [op, w] => unary s (String.ofList op) w
  | [a, op, b] => binary (String.ofList op) a b
  | _ => false

def test (args : List Chars) : Run Unit := do
  setStatus (if holds (← get) args then 0 else 1)

/-! ### Files -/

def isOption (cs : Chars) : Bool := cs.head? = some '-' && 1 < cs.length

def operands (args : List Chars) : List Chars := args.filter fun a => !(isOption a)

/-- Does something with each operand. The command fails with a code if that fails for one. -/
def forEachOr (code : Nat) (args : List Chars) (f : Chars → Run Bool) : Run Unit := do
  let done ← (operands args).mapM f
  setStatus (if done.all id then 0 else code)

def forEach (args : List Chars) (f : Chars → Run Bool) : Run Unit := forEachOr 1 args f

/-- The paths that lead to a path, the shortest first. -/
def leading (cs : Chars) : List Chars :=
  ((List.range cs.length).filter fun i => 0 < i && cs[i]? = some '/').map fun i => cs.take i

def makeDir (parents : Bool) (p : Chars) : Run Bool := do
  if parents then
    for q in leading p do
      let _ ← onTree fun t d => t.mkdir d (path q) 0o777
  match ← onTree fun t d => t.mkdir d (path p) 0o777 with
  | none => return true
  | some e =>
    if parents ∧ (← get).finds true p fun n => n.objectKind = .dir then return true
    say ["mkdir: cannot create directory '".toList, p, "': ".toList, words e]
    return false

def mkdir (args : List Chars) : Run Unit :=
  forEach args (makeDir (args.any fun a => isOption a && a.contains 'p'))

def removeOne (recursive force : Bool) (p : Chars) : Run Bool := do
  let r ← onTree fun t d =>
    match t.unlink d (path p) with
    | .error .isDirectory => if recursive then t.removeAll d (path p) else .error .isDirectory
    | r => r
  match r with
  | none => return true
  | some e =>
    if force ∧ e = .notFound then return true
    say ["rm: cannot remove '".toList, p, "': ".toList, words e]
    return false

def rm (args : List Chars) : Run Unit :=
  let flags := (args.filter isOption).flatten
  forEach args (removeOne (flags.contains 'r' || flags.contains 'R') (flags.contains 'f'))

def touch (args : List Chars) : Run Unit := forEach args fun p => do
  match ← onTree fun t d => (t.openFile d (path p) 0o666).map (·.2) with
  | none | some .isDirectory => return true
  | some e =>
    say ["touch: cannot touch '".toList, p, "': ".toList, words e]
    return false

def symlink (args : List Chars) : Run Unit := do
  match operands args with
  | [target, p] =>
    match ← onTree fun t d => t.symlink d (path target) (path p) with
    | none => setStatus 0
    | some e =>
      say ["ln: failed to create symbolic link '".toList, p, "': ".toList, words e]
      setStatus 1
  | _ => setStatus 1

/-- What a command is given to read at a path, `-` being its input; none after a complaint. -/
def content? (command p : Chars) : Run (Option Chars) := do
  let s ← get
  if p = ['-'] then
    set { s with input := [] }
    return some s.input
  match s.tree.readFile s.cwd (path p) with
  | .ok content => return some (chars content)
  | .error e =>
    say [command, ": ".toList, p, ": ".toList, words e]
    return none

/-- Shows something of each text that a command is given to read. -/
def showEach (command : String) (args : List Chars) (f : Chars → Chars) : Run Unit :=
  forEach (if operands args = [] then [['-']] else args) fun p => do
    match ← content? command.toList p with
    | some cs =>
      emit 1 (f cs)
      return true
    | none => return false

/-- The lines of a text in order. -/
def sorted (cs : Chars) : Chars :=
  let lines := (String.ofList cs).splitOn "\n" |>.map String.toList
  let lines := if lines.getLast? = some [] then lines.dropLast else lines
  (lines.mergeSort fun a b => (compare (octets a) (octets b)).isLE).flatMap (· ++ ['\n'])

/-- The names in a directory, in order, without those that start with a dot. -/
def names (t : Tree) (loc : Location) : List Chars :=
  let inside := t.nodes.entries.filterMap fun e =>
    if e.1.dropLast = loc ∧ e.1 ≠ [] then e.1.getLast?.map chars else none
  inside.filter fun n => n.head? ≠ some '.'

def ls (args : List Chars) : Run Unit :=
  forEachOr 2 (if operands args = [] then [['.']] else args) fun p => do
    let s ← get
    match s.tree.lookup s.cwd true (path p) with
    | .ok (loc, .dir _) =>
      for n in names s.tree loc do emit 1 (n ++ ['\n'])
      return true
    | .ok _ =>
      emit 1 (p ++ ['\n'])
      return true
    | .error e =>
      say ["ls: cannot access '".toList, p, "': ".toList, words e]
      return false

/-! ### Variables -/

def environment : Run Unit := do
  for v in (← get).environ.entries do
    emit 1 (chars v.1 ++ '=' :: chars v.2 ++ ['\n'])
  setStatus 0

def printenv (args : List Chars) : Run Unit := do
  if args = [] then environment
  else forEach args fun a => do
    match (← get).environ.get? (octets a) with
    | some v =>
      emit 1 (chars v ++ ['\n'])
      return true
    | none => return false

def pwd : Run Unit := do
  emit 1 ((← get).here ++ ['\n'])
  setStatus 0

/-- The programs of the system, apart from its shell. -/
def utilities : List (String × (List Chars → Run Unit)) :=
  [("true", fun _ => setStatus 0), ("false", fun _ => setStatus 1), ("echo", echo false),
    ("printf", printf), ("test", test), ("mkdir", mkdir), ("rm", rm), ("touch", touch),
    ("ln", symlink), ("ls", ls), ("cat", fun args => showEach "cat" args id),
    ("sort", fun args => showEach "sort" args sorted),
    ("env", fun _ => environment), ("printenv", printenv),
    ("sleep", fun _ => setStatus 0), ("pwd", fun _ => pwd)]

end LlvmBootstrap.Rehearsal.Run
