/-
# `cw_spawn_process` and the process table

The table of `cw_process.c`: `CW_MAX_PROCESSES` slots, of which those below `cw_last_process`
are in use or free again (`pid == -1`).  `cw_spawn_process` looks for a free slot, opens a pair of
sockets straight into it, prepares them, forks, and fills in the rest of the slot afterwards.

What the system answers is an argument of the call (`SpawnAnswers`), and only the parent's side
of the fork is modelled.  Every access to `cw_processes` is checked: a call that would leave the
array is `none`.  The descriptors the process has open are a field of the table.
-/
import Mathlib.Logic.Function.Basic

namespace Capwap

/-! ## 1. Slots

The array has a fixed size, and the code never compares an index with it but at one place.  So
reading and writing are partial here: what the code does outside the array cannot be said, and that
it does not get there is something to prove. -/

/-- `CW_MAX_PROCESSES`. -/
def maxProcesses : Nat := 1024

/-- `CW_INVALID_PID`, also the mark of a free slot. -/
def invalidPid : Int := -1

/-- The negative codes for `respawn`; other values name a slot. -/
def processNoRespawn : Int := -1
def processJustSpawn : Int := -2
def processRespawn : Int := -3
def processJustRespawn : Int := -4
def processDetached : Int := -5

/-- `cw_process_t`; `proc` is a function's address. -/
structure Process where
  pid : Int
  channel : Int × Int
  proc : Nat
  data : Nat
  name : String
  respawn : Bool
  justSpawn : Bool
  detached : Bool
  exiting : Bool
  exited : Bool
deriving DecidableEq, Repr

/-- A slot as the program finds it: all bytes zero. -/
def Process.zero : Process :=
  { pid := 0, channel := (0, 0), proc := 0, data := 0, name := "", respawn := false,
    justSpawn := false, detached := false, exiting := false, exited := false }

/-- The globals `cw_processes`, `cw_last_process`, `cw_process_slot` and `cw_channel`, and the open
descriptors, which are the kernel's. -/
structure ProcessTable where
  processes : Fin maxProcesses → Process
  last : Nat
  slot : Nat
  channel : Int
  fds : List Int

namespace ProcessTable

/-- The table the program starts with. -/
def start (fds : List Int) : ProcessTable :=
  { processes := fun _ => .zero, last := 0, slot := 0, channel := 0, fds := fds }

/-- `cw_processes[i]`, when there is such an element. -/
def read (t : ProcessTable) (i : Nat) : Option Process :=
  if h : i < maxProcesses then some (t.processes ⟨i, h⟩) else none

/-- An assignment to `cw_processes[i]`. -/
def write (t : ProcessTable) (i : Nat) (p : Process) : Option ProcessTable :=
  if h : i < maxProcesses then some { t with processes := Function.update t.processes ⟨i, h⟩ p }
  else none

/-- `cw_close_channel`.  Both descriptors are closed; one that is not open is logged, and nothing
else happens. -/
def closeChannel (t : ProcessTable) (channel : Int × Int) : ProcessTable :=
  { t with fds := (t.fds.erase channel.1).erase channel.2 }

/-- The loop that looks for a free slot, from `s` on, with `n` slots to go.  If there is none it
ends behind the last. -/
def freeSlot (t : ProcessTable) : Nat → Nat → Option Nat
  | 0, s => some s
  | n + 1, s =>
    match t.read s with
    | none => none
    | some p => if p.pid = -1 then some s else freeSlot t n (s + 1)

end ProcessTable

/-! ## 2. `cw_spawn_process`

The function is cut where its effects are: the choice of the slot, the sockets, and the fork.
Calls on the new descriptors that fail close them and return, with the slot's channel already
written. -/

/-- The arguments of a call. -/
structure SpawnCall where
  proc : Nat
  data : Nat
  name : String
  respawn : Int
deriving DecidableEq, Repr

/-- What the system answers: the two descriptors of `socketpair`, whether each of the calls that
prepare them succeeds, and the child's pid, if there is a child. -/
structure SpawnAnswers where
  socketpair : Option (Int × Int)
  nonblocking₀ : Bool
  nonblocking₁ : Bool
  fioasync : Bool
  setown : Bool
  cloexec₀ : Bool
  cloexec₁ : Bool
  fork : Option Nat
deriving DecidableEq, Repr

/-- Why a call returned `CW_INVALID_PID`. -/
inductive SpawnError
  | noSlot
  | socketpair
  | nonblocking
  | fioasync
  | setown
  | cloexec
  | fork
deriving DecidableEq, Repr

/-- The format of the line that is logged. -/
def SpawnError.format : SpawnError → String
  | .noSlot => "no more than %d processes can be spawned"
  | .socketpair => "socketpair() failed while spawning \"%s\""
  | .nonblocking => "ioctl(FIONBIO) failed while spawning \"%s\""
  | .fioasync => "ioctl(FIOASYNC) failed while spawning \"%s\""
  | .setown => "fcntl(F_SETOWN) failed while spawning \"%s\""
  | .cloexec => "fcntl(FD_CLOEXEC) failed while spawning \"%s\""
  | .fork => "fork() failed while spawning \"%s\""

/-- The return value. -/
def spawnPid : Except SpawnError Nat → Int
  | .ok pid => pid
  | .error _ => invalidPid

/-- The first of the calls on the new descriptors that fails, in the order of the source. -/
def SpawnAnswers.setupError (ans : SpawnAnswers) : Option SpawnError :=
  if ans.nonblocking₀ = false then some .nonblocking
  else if ans.nonblocking₁ = false then some .nonblocking
  else if ans.fioasync = false then some .fioasync
  else if ans.setown = false then some .setown
  else if ans.cloexec₀ = false then some .cloexec
  else if ans.cloexec₁ = false then some .cloexec
  else none

/-- The `switch (respawn)`.  A code it does not name leaves the bits as they are. -/
def Process.setRespawn (p : Process) (respawn : Int) : Process :=
  if respawn = processNoRespawn then
    { p with respawn := false, justSpawn := false, detached := false }
  else if respawn = processJustSpawn then
    { p with respawn := false, justSpawn := true, detached := false }
  else if respawn = processRespawn then
    { p with respawn := true, justSpawn := false, detached := false }
  else if respawn = processJustRespawn then
    { p with respawn := true, justSpawn := true, detached := false }
  else if respawn = processDetached then
    { p with respawn := false, justSpawn := false, detached := true }
  else p

/-- The part from `fork()` on, for slot `s`.  A call with a slot as its code leaves what the slot
was forked for. -/
def forkProcess (call : SpawnCall) (ans : SpawnAnswers) (s : Nat) (t : ProcessTable) :
    Option (Except SpawnError Nat × ProcessTable) := do
  let t := { t with slot := s }
  let p ← t.read s
  match ans.fork with
  | none => some (.error .fork, t.closeChannel p.channel)
  | some pid =>
    let p := { p with pid := pid, exited := false }
    if call.respawn ≥ 0 then
      let t ← t.write s p
      some (.ok pid, t)
    else
      let p := { p with proc := call.proc, data := call.data, name := call.name, exiting := false }
      let t ← t.write s (p.setRespawn call.respawn)
      some (.ok pid, if s = t.last then { t with last := t.last + 1 } else t)

/-- The part from the sockets on, for slot `s`. -/
def spawnIn (call : SpawnCall) (ans : SpawnAnswers) (s : Nat) (t : ProcessTable) :
    Option (Except SpawnError Nat × ProcessTable) := do
  let p ← t.read s
  if call.respawn ≠ processDetached then
    match ans.socketpair with
    | none => some (.error .socketpair, t)
    | some channel =>
      let t ← { t with fds := channel.1 :: channel.2 :: t.fds }.write s
        { p with channel := channel }
      match ans.setupError with
      | some e => some (.error e, t.closeChannel channel)
      | none => forkProcess call ans s { t with channel := channel.2 }
  else
    let t ← t.write s { p with channel := (-1, -1) }
    forkProcess call ans s t

/-- `cw_spawn_process`, in the parent: the return value, or why it is `CW_INVALID_PID`. -/
def spawnProcess (call : SpawnCall) (ans : SpawnAnswers) (t : ProcessTable) :
    Option (Except SpawnError Nat × ProcessTable) := do
  if call.respawn ≥ 0 then spawnIn call ans call.respawn.toNat t
  else
    let s ← t.freeSlot t.last 0
    if s = maxProcesses then some (.error .noSlot, t) else spawnIn call ans s t

end Capwap
