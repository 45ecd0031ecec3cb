import LlvmBootstrap.Arch
import LlvmBootstrap.Json
import LlvmBootstrap.Text.Numeral

/-!
The record of the run that holds a root, as it stands in the lock file. Writing and then
reading gives the record back; a reader passes over members it does not know, and takes the
four values in order as well.
-/

namespace LlvmBootstrap

structure Holder where
  /-- The number of the process. -/
  pid : Nat
  /-- What the run was asked to do. -/
  command : String
  arch : Arch
  /-- When it started, in seconds. -/
  started : Nat
  deriving DecidableEq

namespace Json

/-- A whole number below a bound. A sign or a fraction is not for such numbers. -/
def natural? (bound : Nat) : Json → Option Nat
  | .number cs => do
    let n ← Numeral.digits? 10 0 cs
    if n < bound then some n else none
  | _ => none

def asText? : Json → Option String
  | .quoted ns => text? ns
  | _ => none

/-- An architecture, by its name or as an object with just that name for a key. -/
def arch? : Json → Option Arch
  | .quoted ns => (text? ns).bind Arch.ofText?
  | .object [(key, .null)] => (text? key).bind Arch.ofText?
  | _ => none

/-- The value of the one member with a key. -/
def member? (key : String) (ms : List (CodePoints × Json)) : Option Json :=
  match ms.filter fun m => text? m.1 = some key with
  | [m] => some m.2
  | _ => none

end Json

namespace Holder

def ofParts? (pid command arch started : Json) : Option Holder := do
  return ⟨← pid.natural? (Numeral.limit 32), ← command.asText?, ← arch.arch?,
    ← started.natural? (Numeral.limit 64)⟩

def ofJson? : Json → Option Holder
  | .object ms => do
    guard (ms.all fun m => (Json.text? m.1).isSome)
    ofParts? (← Json.member? "pid" ms) (← Json.member? "command" ms) (← Json.member? "arch" ms)
      (← Json.member? "started_at_unix" ms)
  | .array [pid, command, arch, started] => ofParts? pid command arch started
  | _ => none

def ofBytes? (bs : Bytes) : Option Holder := do
  ofJson? (← Json.ofText? (← Utf8.decode? bs))

def text (h : Holder) : String :=
  "\x7b\"pid\":" ++ toString h.pid ++ ",\"command\":" ++ Json.quote h.command ++
  ",\"arch\":" ++
    Json.quote h.arch.text ++ ",\"started_at_unix\":" ++ toString h.started ++ "\x7d"

def toBytes (h : Holder) : Bytes := Utf8.encode h.text

/-- What is told of a holder at the time `now`. -/
def described (h : Holder) (now : Nat) : String :=
  "`" ++ h.command ++ "` for " ++ h.arch.text ++ " (PID " ++ toString h.pid ++
  ") has held it for " ++
    toString (now - h.started) ++ "s"

end Holder

end LlvmBootstrap
