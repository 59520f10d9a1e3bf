/-
# The master and its workers, together

After `cw_init_signals`, `main` is in `cw_master_process_cycle`: it forks the workers, and then
waits for signals.  Each worker is a copy of the master at the moment of the fork, and runs
`cw_worker_process_cycle`.  From then on nothing is shared.  Signals may come to any process at any
time, and the processes take their steps in any order (`Histories`).

A call of `cw_spawn_process` is one step, as a signal that comes in the middle of it could as well
have come before or after: the handler writes nothing the call reads.

`histories_sound` is what holds in every state.  The master ends by a signal that it does not handle
and in no other way.  It forks two workers at most, into the first slots of its table, and each
worker sees the slots before its own as the master does.  A worker that has ended is
still in the table, as if it ran.  It is never replaced.
-/
import Capwap.Lib.Family
import Capwap.Process.Master
import Capwap.Process.Signals

namespace Capwap

open Family

/-! ## 1. At the fork

`cw_spawn_process` returns in the parent only.  The child goes on inside, with a copy of the
globals as they are at that point: its slot is chosen, the channel is in it, and the pid is not. -/

/-- The globals when `fork` is called for slot `s`, in the parent and in the child, provided the
calls before it succeeded. -/
def forkTableIn (call : SpawnCall) (ans : SpawnAnswers) (s : Nat) (t : ProcessTable) :
    Option ProcessTable := do
  let p ← t.read s
  if call.respawn ≠ processDetached then
    let channel ← ans.socketpair
    let t ← { t with fds := channel.1 :: channel.2 :: t.fds }.write s { p with channel := channel }
    some { t with channel := channel.2, slot := s }
  else
    let t ← t.write s { p with channel := (-1, -1) }
    some { t with slot := s }

/-- The same, for the slot the call takes. -/
def forkTable (call : SpawnCall) (ans : SpawnAnswers) (t : ProcessTable) : Option ProcessTable :=
  if call.respawn ≥ 0 then forkTableIn call ans call.respawn.toNat t
  else (t.freeSlot t.last 0).bind fun s => forkTableIn call ans s t

/-! ## 2. Processes

A process is given by where it is in its program and by its variables.  It has two kinds of steps:
a signal comes, or the program goes on to its next point, with what the system answers there.
Between two points nothing happens that others could see. -/

/-- How a process ends. -/
inductive Ending
  | exit (code : Nat)
  | signal (signo : Nat)
  /-- a call through a null pointer -/
  | fault
deriving DecidableEq, Repr

/-- What the processes are run with: what each signal does, which modules have `init_process`, and
whether `cw_event_actions.process_events` is set.  None of this changes once `main` has entered the
master's cycle. -/
@[ext] structure Runtime where
  disposition : Nat → Disposition
  hooks : List Bool
  polls : Bool

/-- Where a worker is: before module `k` in the loop of `cw_worker_process_init`, before or after
the call of `cw_process_events_and_timers`, or at its end. -/
inductive WorkerPoint
  | initializing (k : Nat)
  | cycling
  | cycled
  | ended (how : Ending)
deriving DecidableEq, Repr

/-- A worker, with its own copies of the globals; `data` is its argument. -/
structure Worker where
  pid : Nat
  data : Nat
  point : WorkerPoint
  flags : SignalFlags
  table : ProcessTable
  log : List LogLine

/-- Where the master is: before worker `i` in the loop of `cw_start_worker_processes`, before
`sigsuspend`, in it or after it, or at its end. -/
inductive MasterPoint
  | starting (i : Nat)
  | waiting
  | suspended
  | woken
  | ended (how : Ending)
deriving DecidableEq, Repr

/-- The master; `live` is the local variable.  The events are a history that no function reads. -/
structure Master where
  pid : Nat
  live : Nat
  point : MasterPoint
  flags : SignalFlags
  table : ProcessTable
  log : List LogLine
  events : List MasterEvent

/-- What a process meets with: a signal, or the answer to what it asks of the system next. -/
inductive Input (α : Type)
  | signal (signo : Nat) (sender : Option Nat)
  | go (answer : α)

namespace Worker

/-- A child at the start of `cw_worker_process_cycle`. -/
def start (pid data : Nat) (flags : SignalFlags) (t : ProcessTable) : Worker :=
  { pid := pid, data := data, point := .initializing 0, flags := flags, table := t, log := [] }

/-- A signal comes. -/
def receive (R : Runtime) (w : Worker) (signo : Nat) (sender : Option Nat) : Worker :=
  match R.disposition signo with
  | .terminate => { w with point := .ended (.signal signo) }
  | .ignore => w
  | .handler =>
    let (flags, line) := signalHandler signo sender w.flags
    { w with flags := flags, log := w.log ++ [line] }

/-- `cw_worker_process_exit`, which is empty. -/
def processExit (w : Worker) : Worker := w

/-- One step of `cw_worker_process_cycle`; `rc` is what an `init_process` returns. -/
def step (R : Runtime) (w : Worker) : Input Int → Option Worker
  | .signal signo sender =>
    match w.point with
    | .ended _ => none
    | _ => some (w.receive R signo sender)
  | .go rc =>
    match w.point with
    | .initializing k =>
      match R.hooks[k]? with
      | none => some { w with point := .cycling }
      | some false => some { w with point := .initializing (k + 1) }
      | some true =>
        if rc = -1 then some { w with point := .ended (.exit 2) }
        else some { w with point := .initializing (k + 1) }
    | .cycling =>
      let w : Worker := { w with log := w.log ++ [.workerCycle] }
      some { w with point := if R.polls then .cycled else .ended .fault }
    | .cycled =>
      if w.flags.terminate ≠ 0 then
        let w : Worker := { w with log := w.log ++ [.exiting] }
        some { w.processExit with point := .cycling }
      else some { w with point := .cycling }
    | .ended _ => none

end Worker

namespace Master

/-- The master at the start of `cw_master_process_cycle`. -/
def start (pid : Nat) (flags : SignalFlags) (fds : List Int) : Master :=
  { pid := pid, live := 1, point := .starting 0, flags := flags, table := .start fds
    log := [.startWorkers], events := [] }

/-- A signal comes.  One that is handled lets `sigsuspend` return. -/
def receive (R : Runtime) (m : Master) (signo : Nat) (sender : Option Nat) : Master :=
  match R.disposition signo with
  | .terminate => { m with point := .ended (.signal signo) }
  | .ignore => m
  | .handler =>
    let (flags, line) := signalHandler signo sender m.flags
    { m with
      flags := flags
      log := m.log ++ [line]
      point := if m.point = .suspended then .woken else m.point }

/-- The arguments of the call for worker `i`. -/
def workerCall (i : Nat) : SpawnCall :=
  { proc := workerProcessCycle, data := i, name := "worker process", respawn := processRespawn }

/-- What `cw_spawn_process` logs. -/
def spawnLine (call : SpawnCall) : Except SpawnError Nat → LogLine
  | .ok pid => .spawn call.name pid
  | .error e => .spawnFailed e

/-- The call for worker `i`, with the child it forks.  The child starts with the table as it is at
the fork, and with the flags of the master. -/
def startWorker (m : Master) (i : Nat) (ans : SpawnAnswers) : Option (Master × Option Worker) := do
  let call := workerCall i
  let (r, t) ← spawnProcess call ans m.table
  let child := match r with
    | .ok pid => (forkTable call ans m.table).map (Worker.start pid i m.flags)
    | .error _ => none
  some ({ m with
    point := .starting (i + 1)
    table := t
    log := m.log ++ [spawnLine call r]
    events := m.events ++ [.spawn call (spawnPid r)] }, child)

/-- The rest of a round, after `sigsuspend`. -/
def round (m : Master) : Master :=
  if m.live = 0 ∧ (m.flags.terminate ≠ 0 ∨ m.flags.quit ≠ 0) then
    -- `cw_master_process_exit`
    { m with
      point := .ended (.exit 0)
      log := m.log ++ [.masterExit]
      events := m.events ++ [.exit] }
  else if m.flags.terminate ≠ 0 then { m with point := .waiting, log := m.log ++ [.terminate] }
  else if m.flags.quit ≠ 0 then { m with point := .waiting, log := m.log ++ [.quit] }
  else { m with point := .waiting }

/-- One step of `cw_master_process_cycle`. -/
def step (R : Runtime) (m : Master) : Input SpawnAnswers → Option (Master × Option Worker)
  | .signal signo sender =>
    match m.point with
    | .ended _ => none
    | _ => some (m.receive R signo sender, none)
  | .go ans =>
    match m.point with
    | .starting i =>
      -- `ccf->worker_processes` is commented out
      if i < 2 then m.startWorker i ans else some ({ m with point := .waiting }, none)
    | .waiting =>
      some ({ m with
        point := .suspended
        log := m.log ++ [.sigsuspend]
        events := m.events ++ [.sigsuspend] }, none)
    | .suspended => none
    | .woken => some (m.round, none)
    | .ended _ => none

end Master

/-- The two programs. -/
def Runtime.laws (R : Runtime) : Laws Master Worker (Input SpawnAnswers) (Input Int) where
  parent m x := m.step R x
  child w y := w.step R y

/-- What the system promises: `socketpair` yields two descriptors that were not open, and `fork` a
pid that no process has.  Nobody waits for the workers, so theirs stay taken.  Nothing is said
about the order of steps, or about which signals come. -/
def SystemAdmits (f : Family Master Worker) :
    Family.Move (Input SpawnAnswers) (Input Int) → Prop
  | .parent (.go ans) =>
    (∀ a b, ans.socketpair = some (a, b) →
      0 ≤ a ∧ 0 ≤ b ∧ a ≠ b ∧ a ∉ f.parent.table.fds ∧ b ∉ f.parent.table.fds) ∧
    ∀ pid, ans.fork = some pid → pid ≠ f.parent.pid ∧ ∀ w ∈ f.children, w.pid ≠ pid
  | _ => True

/-- The histories of a master that starts with the descriptors `fds`. -/
abbrev Runtime.Histories (R : Runtime) (pid : Nat) (flags : SignalFlags) (fds : List Int) :
    List (Family.Move (Input SpawnAnswers) (Input Int)) → Family Master Worker → Prop :=
  R.laws.Run SystemAdmits (Master.start pid flags fds)

/-! ## 3. The call for a worker

Slots are never freed here, so the slots in use are the first ones, without a gap, and the call
takes the one behind them. -/

section
variable {call : SpawnCall} {ans : SpawnAnswers} {t t' : ProcessTable} {pid : Nat}

/-- The parent goes on from the table the child has. -/
theorem spawnIn_fork {s : Nat} (h : spawnIn call ans s t = some (.ok pid, t')) :
    ∃ tf, forkTableIn call ans s t = some tf ∧
      forkProcess call ans tf.slot tf = some (.ok pid, t') := by
  unfold spawnIn at h
  obtain ⟨p, hp, h⟩ := Option.bind_eq_some_iff.mp h
  simp only [forkTableIn, hp, Option.bind_eq_bind, Option.bind_some]
  by_cases hdet : call.respawn ≠ processDetached
  · rw [if_pos hdet] at h ⊢
    cases hpair : ans.socketpair with
    | none => simp [hpair] at h
    | some channel =>
      simp only [hpair, Option.bind_eq_bind, Option.bind_some] at h ⊢
      obtain ⟨t₁, ht₁, h⟩ := Option.bind_eq_some_iff.mp h
      rw [ht₁, Option.bind_some]
      refine ⟨_, rfl, ?_⟩
      cases hsetup : ans.setupError with
      | some e => simp [hsetup] at h
      | none =>
        simp only [hsetup] at h
        exact h
  · rw [if_neg hdet] at h ⊢
    obtain ⟨t₁, ht₁, h⟩ := Option.bind_eq_some_iff.mp h
    rw [ht₁, Option.bind_some]
    exact ⟨_, rfl, h⟩

/-- The same for a whole call: what it does after the fork is done on the table that the child
has. -/
theorem spawnProcess_fork (h : spawnProcess call ans t = some (.ok pid, t')) :
    ∃ tf, forkTable call ans t = some tf ∧
      forkProcess call ans tf.slot tf = some (.ok pid, t') := by
  unfold spawnProcess at h
  unfold forkTable
  by_cases hneg : call.respawn ≥ 0
  · rw [if_pos hneg] at h ⊢
    exact spawnIn_fork h
  · rw [if_neg hneg] at h ⊢
    obtain ⟨s, hs, h⟩ := Option.bind_eq_some_iff.mp h
    rw [hs, Option.bind_some]
    split at h
    · simp at h
    · exact spawnIn_fork h

/-- What is in the child's table `tf`, forked into slot `k` of `t`: the slots before are as the
parent has them, and slot `k` has the channel. -/
structure ProcessTable.SeenFrom (t : ProcessTable) (k : Nat) (tf : ProcessTable) : Prop where
  last : tf.last = k
  slot : tf.slot = k
  before : ∀ i, i < k → tf.read i = t.read i
  channel : ∃ p q, t.read k = some p ∧ tf.read k = some q ∧ q.channel = p.channel ∧
    tf.channel = p.channel.2

/-- Only the slots up to `k` matter. -/
theorem ProcessTable.SeenFrom.keeps {k : Nat} {tf : ProcessTable} (h : t.SeenFrom k tf)
    (hread : ∀ i, i ≤ k → t'.read i = t.read i) : t'.SeenFrom k tf where
  last := h.last
  slot := h.slot
  before i hi := (h.before i hi).trans (hread i (Nat.le_of_lt hi)).symm
  channel := by
    obtain ⟨p, q, hp, hrest⟩ := h.channel
    exact ⟨p, q, (hread k (Nat.le_refl _)).trans hp, hrest⟩

/-- When all slots are in use, the search ends behind them. -/
theorem freeSlot_full {n : Nat} (hlast : t.last = n) (hn : n < maxProcesses)
    (hused : ∀ j, j < n → ∃ p, t.Live j p) : t.freeSlot t.last 0 = some n := by
  obtain ⟨s, hs, hle, hfree⟩ := t.freeSlot_not_live (by omega)
  rcases Nat.lt_or_eq_of_le hle with hlt | rfl
  · obtain ⟨p, hp⟩ := hused s (by omega)
    exact absurd hp (hfree p)
  · rw [hs, hlast]

/-- What the child sees when it is forked behind the slots in use. -/
theorem forkTable_seen {i n : Nat} {tf : ProcessTable} {p : Process} (hlast : t.last = n)
    (hn : n < maxProcesses) (hfind : t.freeSlot t.last 0 = some n)
    (h : forkTable (Master.workerCall i) ans t = some tf)
    (hframe : ∀ j, j ≠ n → t'.read j = t.read j) (hp : t'.read n = some p)
    (hrec : p.Records ((Master.workerCall i).child ans pid)) : t'.SeenFrom n tf := by
  have hneg : ¬ (Master.workerCall i).respawn ≥ 0 := show ¬ processRespawn ≥ 0 by decide
  have hdet : (Master.workerCall i).respawn ≠ processDetached :=
    show processRespawn ≠ processDetached by decide
  unfold forkTable at h
  rw [if_neg hneg, hfind, Option.bind_some, forkTableIn, t.read_of_lt hn] at h
  simp only [Option.bind_eq_bind, Option.bind_some, if_pos hdet] at h
  obtain ⟨channel, hpair, h⟩ := Option.bind_eq_some_iff.mp h
  rw [ProcessTable.write_of_lt _ hn, Option.bind_some] at h
  obtain rfl := Option.some.inj h
  have hread := fun j => t.read_update hn { t.processes ⟨n, hn⟩ with channel := channel } j
  have hchannel : p.channel = channel := by
    rw [hrec.channel, SpawnCall.child]
    simp [hdet, hpair]
  refine ⟨hlast, rfl, fun j hj => ?_, p, _, hp, (hread n).trans (if_pos rfl), hchannel.symm, ?_⟩
  · rw [hframe j (Nat.ne_of_lt hj)]
    exact (hread j).trans (if_neg (Nat.ne_of_lt hj))
  · rw [hchannel]

/-- The call for a worker when all slots are in use: it fails, or it forks a child behind them. -/
theorem spawnWorker_spec (i : Nat) (ans : SpawnAnswers) {n : Nat} (hlast : t.last = n)
    (hn : n < maxProcesses) (hused : ∀ j, j < n → ∃ p, t.Live j p)
    (hfds : ∀ fd ∈ t.fds, 0 ≤ fd) :
    ∃ r t', spawnProcess (Master.workerCall i) ans t = some (r, t') ∧
      (∀ j, j ≠ n → t'.read j = t.read j) ∧
      ((∃ e, r = .error e ∧ t'.last = n ∧ t'.fds = t.fds) ∨
        ∃ pid tf p, r = .ok pid ∧ ans.fork = some pid ∧
          forkTable (Master.workerCall i) ans t = some tf ∧ t'.last = n + 1 ∧
          (t'.fds = t.fds ∨ ∃ a b, ans.socketpair = some (a, b) ∧ t'.fds = a :: b :: t.fds) ∧
          t'.Live n p ∧ p.Records ((Master.workerCall i).child ans pid) ∧ t'.SeenFrom n tf) := by
  have hneg : (Master.workerCall i).respawn < 0 := show processRespawn < 0 by decide
  obtain ⟨s, r, t', hle, hfree, hrun, hr⟩ := spawnProcess_spec ans hneg (t := t) (by omega) hfds
  obtain rfl : s = n := by
    rcases Nat.lt_or_eq_of_le hle with hlt | heq
    · obtain ⟨p, hp⟩ := hused s (by omega)
      exact absurd hp (hfree p)
    · omega
  refine ⟨r, t', hrun, ?_⟩
  rcases hr with ⟨e, rfl, hun⟩ | ⟨pid, rfl, hfork, hsp⟩
  · exact ⟨hun.frame, Or.inl ⟨e, rfl, hun.last.trans hlast, hun.fds⟩⟩
  · obtain ⟨p, hp, hrec⟩ := hsp.slot
    obtain ⟨tf, htf, -⟩ := spawnProcess_fork hrun
    have hlast' : t'.last = s + 1 := by
      rw [hsp.last, if_pos hlast.symm, hlast]
    have hlive : t'.Live s p := by
      refine ⟨by omega, hp, ?_⟩
      have hpid := hrec.pid
      simp only [SpawnCall.child] at hpid
      omega
    exact ⟨hsp.frame, Or.inr ⟨pid, tf, p, rfl, hfork, htf, hlast', hsp.fds, hlive, hrec,
      forkTable_seen hlast hn (freeSlot_full hlast hn hused) htf hsp.frame hp hrec⟩⟩

end

/-! ## 4. One step

A step of a worker leaves its pid, its argument and its table alone.  A step of the master is a
call for the next worker, or quiet: it calls nothing, and its table stays as it is.  Later proofs
use these two facts and do not look into the programs. -/

/-- A signal that ends the process. -/
def Ending.BySignal (R : Runtime) (how : Ending) : Prop :=
  ∃ signo, how = .signal signo ∧ R.disposition signo = .terminate

/-- How a worker can end. -/
inductive Ending.OfWorker (R : Runtime) : Ending → Prop
  | signal {signo : Nat} : R.disposition signo = .terminate → Ending.OfWorker R (.signal signo)
  /-- an `init_process` returned `CW_ERROR` -/
  | hook : true ∈ R.hooks → Ending.OfWorker R (.exit 2)
  /-- there is no `process_events` -/
  | events : R.polls = false → Ending.OfWorker R .fault

section
variable {R : Runtime}

/-- A signal comes to a worker that has not ended. -/
theorem Worker.step_signal {w w' : Worker} {signo : Nat} {sender : Option Nat}
    (h : w.step R (.signal signo sender) = some w') :
    (∀ how, w.point ≠ .ended how) ∧ w' = w.receive R signo sender := by
  unfold Worker.step at h
  cases hpoint : w.point with
  | ended how => simp [hpoint] at h
  | initializing _ | cycling | cycled =>
    simp only [hpoint, Option.some.injEq] at h
    exact ⟨by simp, h.symm⟩

/-- What a worker's step leaves alone, and how it can end. -/
theorem Worker.step_keeps {w w' : Worker} {y : Input Int} (h : w.step R y = some w') :
    w'.pid = w.pid ∧ w'.data = w.data ∧ w'.table = w.table ∧
      ∀ how, w'.point = .ended how → how.OfWorker R := by
  cases y with
  | signal signo sender =>
    obtain ⟨hrunning, rfl⟩ := Worker.step_signal h
    unfold Worker.receive
    cases hD : R.disposition signo with
    | terminate =>
      refine ⟨rfl, rfl, rfl, ?_⟩
      rintro how ⟨⟩
      exact .signal hD
    | ignore => exact ⟨rfl, rfl, rfl, fun how hhow => absurd hhow (hrunning how)⟩
    | handler => exact ⟨rfl, rfl, rfl, fun how hhow => absurd hhow (hrunning how)⟩
  | go rc =>
    unfold Worker.step at h
    cases hpoint : w.point with
    | ended how => simp [hpoint] at h
    | initializing k =>
      simp only [hpoint] at h
      cases hk : R.hooks[k]? with
      | none =>
        simp only [hk, Option.some.injEq] at h
        subst h
        exact ⟨rfl, rfl, rfl, by simp⟩
      | some hook =>
        cases hook with
        | false =>
          simp only [hk, Option.some.injEq] at h
          subst h
          exact ⟨rfl, rfl, rfl, by simp⟩
        | true =>
          simp only [hk] at h
          split at h
          · obtain rfl := Option.some.inj h
            refine ⟨rfl, rfl, rfl, ?_⟩
            rintro how ⟨⟩
            exact .hook (List.mem_of_getElem? hk)
          · obtain rfl := Option.some.inj h
            exact ⟨rfl, rfl, rfl, by simp⟩
    | cycling =>
      simp only [hpoint, Option.some.injEq] at h
      subst h
      refine ⟨rfl, rfl, rfl, ?_⟩
      intro how hhow
      cases hpolls : R.polls with
      | true => simp [hpolls] at hhow
      | false =>
        simp only [hpolls, Bool.false_eq_true, if_false, WorkerPoint.ended.injEq] at hhow
        exact hhow ▸ .events hpolls
    | cycled =>
      simp only [hpoint] at h
      split at h
      · obtain rfl := Option.some.inj h
        exact ⟨rfl, rfl, rfl, by simp⟩
      · obtain rfl := Option.some.inj h
        exact ⟨rfl, rfl, rfl, by simp⟩

/-- The next worker to start; after the loop there is none. -/
def MasterPoint.next : MasterPoint → Nat
  | .starting i => i
  | _ => 2

/-- A step of the master that calls nothing. -/
structure Master.Quiet (R : Runtime) (m m' : Master) : Prop where
  pid : m'.pid = m.pid
  live : m'.live = m.live
  table : m'.table = m.table
  next : m.point.next ≤ 2 → m.point.next ≤ m'.point.next ∧ m'.point.next ≤ 2
  ended : m.live ≠ 0 → ∀ how, m'.point = .ended how → how.BySignal R

theorem Master.Quiet.receive {m : Master} {signo : Nat} {sender : Option Nat}
    (hrunning : ∀ how, m.point ≠ .ended how) : m.Quiet R (m.receive R signo sender) := by
  unfold Master.receive
  cases hD : R.disposition signo with
  | terminate =>
    refine ⟨rfl, rfl, rfl, fun h => ⟨h, Nat.le_refl 2⟩, fun _ how hhow => ?_⟩
    cases hhow
    exact ⟨signo, rfl, hD⟩
  | ignore =>
    exact ⟨rfl, rfl, rfl, fun h => ⟨Nat.le_refl _, h⟩, fun _ how h => absurd h (hrunning how)⟩
  | handler =>
    refine ⟨rfl, rfl, rfl, fun h => ?_, fun _ how hhow => ?_⟩
    · by_cases hp : m.point = .suspended
      · simp [hp, MasterPoint.next]
      · simp only [if_neg hp]
        exact ⟨Nat.le_refl _, h⟩
    · by_cases hp : m.point = .suspended
      · simp [hp] at hhow
      · simp only [if_neg hp] at hhow
        exact absurd hhow (hrunning how)

theorem Master.Quiet.round {m : Master} (hpoint : m.point = .woken) : m.Quiet R m.round := by
  unfold Master.round
  split
  · rename_i hexit
    exact ⟨rfl, rfl, rfl, fun _ => by simp [hpoint, MasterPoint.next],
      fun hlive => absurd hexit.1 hlive⟩
  split
  · exact ⟨rfl, rfl, rfl, fun _ => by simp [hpoint, MasterPoint.next], by simp⟩
  split
  · exact ⟨rfl, rfl, rfl, fun _ => by simp [hpoint, MasterPoint.next], by simp⟩
  · exact ⟨rfl, rfl, rfl, fun _ => by simp [hpoint, MasterPoint.next], by simp⟩

/-- A signal comes to a master that has not ended. -/
theorem Master.step_signal {m m' : Master} {signo : Nat} {sender : Option Nat}
    {made : Option Worker} (h : m.step R (.signal signo sender) = some (m', made)) :
    (∀ how, m.point ≠ .ended how) ∧ m' = m.receive R signo sender ∧ made = none := by
  unfold Master.step at h
  cases hpoint : m.point with
  | ended how => simp [hpoint] at h
  | starting _ | waiting | suspended | woken =>
    simp only [hpoint, Option.some.injEq, Prod.mk.injEq] at h
    exact ⟨by simp, h.1.symm, h.2.symm⟩

/-- A step of the master calls `cw_spawn_process` for the next worker, or nothing; then no worker
is made. -/
theorem Master.step_cases {m m' : Master} {x : Input SpawnAnswers} {made : Option Worker}
    (h : m.step R x = some (m', made)) :
    (made = none ∧ m.Quiet R m') ∨
      ∃ i ans, x = .go ans ∧ m.point = .starting i ∧ i < 2 ∧
        m.startWorker i ans = some (m', made) := by
  cases x with
  | signal signo sender =>
    obtain ⟨hrunning, rfl, rfl⟩ := Master.step_signal h
    exact Or.inl ⟨rfl, .receive hrunning⟩
  | go ans =>
    unfold Master.step at h
    cases hpoint : m.point with
    | ended how => simp [hpoint] at h
    | suspended => simp [hpoint] at h
    | starting i =>
      simp only [hpoint] at h
      split at h
      · rename_i hi
        exact Or.inr ⟨i, ans, rfl, rfl, hi, h⟩
      · rename_i hi
        obtain ⟨rfl, rfl⟩ := Prod.mk.inj (Option.some.inj h)
        exact Or.inl ⟨rfl, rfl, rfl, rfl, fun hle => ⟨hpoint ▸ hle, Nat.le_refl 2⟩, by simp⟩
    | waiting =>
      simp only [hpoint, Option.some.injEq, Prod.mk.injEq] at h
      obtain ⟨rfl, rfl⟩ := h
      exact Or.inl ⟨rfl, rfl, rfl, rfl, fun _ => by simp [hpoint, MasterPoint.next], by simp⟩
    | woken =>
      simp only [hpoint, Option.some.injEq, Prod.mk.injEq] at h
      exact Or.inl ⟨h.2.symm, h.1 ▸ .round hpoint⟩

/-! ## 5. Every state

There is one invariant for the master, given the number of its workers, and one relation between
the master and each of its workers.  That a step of any process keeps them is the library's
condition for a family, and so they hold in every history. -/

/-- What holds of the master when it has `n` workers. -/
structure Master.Inv (R : Runtime) (m : Master) (n : Nat) : Prop where
  live : m.live = 1
  next : n ≤ m.point.next ∧ m.point.next ≤ 2
  ended : ∀ how, m.point = .ended how → how.BySignal R
  last : m.table.last = n
  fds : ∀ fd ∈ m.table.fds, 0 ≤ fd
  used : ∀ k, k < n → ∃ p, m.table.Live k p
  data : ∀ k p, m.table.Live k p → p.data < m.point.next
  order : ∀ j k p q, j < k → m.table.Live j p → m.table.Live k q → p.data < q.data
  pids : ∀ j k p q, m.table.Live j p → m.table.Live k q → p.pid = q.pid → j = k

/-- A worker as the child of a call. -/
def Worker.asChild (w : Worker) (channel : Int × Int) : Child :=
  { pid := w.pid, proc := workerProcessCycle, data := w.data, name := "worker process"
    respawn := processRespawn, channel := channel }

/-- What ties the master to the worker it forked into slot `k`: the slot records it, its table is
what the master's was up to there, and it has not ended in a way that workers do not end. -/
structure Master.Tied (R : Runtime) (m : Master) (k : Nat) (w : Worker) : Prop where
  record : ∃ p, m.table.Live k p ∧ p.Records (w.asChild p.channel)
  seen : m.table.SeenFrom k w.table
  ended : ∀ how, w.point = .ended how → how.OfWorker R

theorem Master.Tied.child_step {m : Master} {k : Nat} {w w' : Worker} {y : Input Int}
    (h : m.Tied R k w) (hstep : w.step R y = some w') : m.Tied R k w' := by
  obtain ⟨hpid, hdata, htable, hended⟩ := Worker.step_keeps hstep
  refine ⟨?_, htable ▸ h.seen, hended⟩
  have hsame : w'.asChild = w.asChild := by
    unfold Worker.asChild
    rw [hpid, hdata]
  rw [hsame]
  exact h.record

/-- A step that calls nothing keeps everything. -/
theorem Master.Inv.quiet {m m' : Master} {n : Nat} (h : m.Inv R n) (hq : m.Quiet R m') :
    m'.Inv R n := by
  obtain ⟨hle, hle'⟩ := hq.next h.next.2
  have hlive : m.live ≠ 0 := by
    rw [h.live]
    decide
  refine ⟨hq.live.trans h.live, ⟨h.next.1.trans hle, hle'⟩, hq.ended hlive, ?_, ?_, ?_, ?_, ?_, ?_⟩
  all_goals rw [hq.table]
  · exact h.last
  · exact h.fds
  · exact h.used
  · exact fun k p hp => Nat.lt_of_lt_of_le (h.data k p hp) hle
  · exact h.order
  · exact h.pids

theorem ProcessTable.Live.unique {t : ProcessTable} {k : Nat} {p q : Process} (h : t.Live k p)
    (h' : t.Live k q) : p = q :=
  Option.some.inj (h.read_eq.symm.trans h'.read_eq)

/-- The first `n` slots of a table, which are all it has, are as before in another. -/
structure ProcessTable.KeptIn (t : ProcessTable) (n : Nat) (t' : ProcessTable) : Prop where
  last : t.last = n
  le : n ≤ t'.last
  read : ∀ k, k < n → t'.read k = t.read k

theorem ProcessTable.KeptIn.live {t t' : ProcessTable} {n k : Nat} {p : Process}
    (h : t.KeptIn n t') (hk : k < n) : t'.Live k p ↔ t.Live k p := by
  constructor
  · exact fun hp => ⟨h.last ▸ hk, (h.read k hk).symm.trans hp.read_eq, hp.used⟩
  · exact fun hp => ⟨Nat.lt_of_lt_of_le hk h.le, (h.read k hk).trans hp.read_eq, hp.used⟩

theorem Master.Tied.kept {m m' : Master} {n k : Nat} {w : Worker} (h : m.Tied R k w)
    (hkept : m.table.KeptIn n m'.table) (hk : k < n) : m'.Tied R k w := by
  obtain ⟨⟨p, hp, hrec⟩, hseen, hended⟩ := h
  exact ⟨⟨p, (hkept.live hk).mpr hp, hrec⟩, hseen.keeps fun j hj => hkept.read j (by omega), hended⟩

/-- The call for worker `i` has failed. -/
theorem Master.Inv.failed {m m' : Master} {n i : Nat} (h : m.Inv R n)
    (hpoint : m.point = .starting i) (hi : i < 2) (hpoint' : m'.point = .starting (i + 1))
    (hlive : m'.live = m.live) (hkept : m.table.KeptIn n m'.table) (hlast : m'.table.last = n)
    (hfds : m'.table.fds = m.table.fds) : m'.Inv R n := by
  have hnext : m.point.next = i := by
    rw [hpoint]
    rfl
  have hnext' : m'.point.next = i + 1 := by
    rw [hpoint']
    rfl
  have hle := h.next.1
  have hback : ∀ k p, m'.table.Live k p → m.table.Live k p :=
    fun k p hp => (hkept.live (hlast ▸ hp.lt)).mp hp
  refine ⟨hlive.trans h.live, ⟨by omega, by omega⟩, by simp [hpoint'], hlast, hfds ▸ h.fds,
    ?_, ?_, ?_, ?_⟩
  · intro k hk
    obtain ⟨p, hp⟩ := h.used k hk
    exact ⟨p, (hkept.live hk).mpr hp⟩
  · intro k p hp
    have hdata := h.data k p (hback k p hp)
    omega
  · exact fun j k p q hjk hp hq => h.order j k p q hjk (hback j p hp) (hback k q hq)
  · exact fun j k p q hp hq => h.pids j k p q (hback j p hp) (hback k q hq)

/-- The call for worker `i` has forked a child into the next slot, with a pid of its own. -/
theorem Master.Inv.forked {m m' : Master} {n i : Nat} {p : Process} (h : m.Inv R n)
    (hpoint : m.point = .starting i) (hi : i < 2) (hpoint' : m'.point = .starting (i + 1))
    (hlive : m'.live = m.live) (hkept : m.table.KeptIn n m'.table) (hlast : m'.table.last = n + 1)
    (hfds : ∀ fd ∈ m'.table.fds, 0 ≤ fd) (hp : m'.table.Live n p) (hdata : p.data = i)
    (hpid : ∀ k q, m.table.Live k q → q.pid ≠ p.pid) : m'.Inv R (n + 1) := by
  have hnext : m.point.next = i := by
    rw [hpoint]
    rfl
  have hnext' : m'.point.next = i + 1 := by
    rw [hpoint']
    rfl
  have hle := h.next.1
  -- a slot in use is an old one, or the new one
  have hcases : ∀ k q, m'.table.Live k q → (k < n ∧ m.table.Live k q) ∨ (k = n ∧ q = p) := by
    intro k q hq
    have hlt := hq.lt
    rcases Nat.lt_or_eq_of_le (show k ≤ n by omega) with hk | rfl
    · exact Or.inl ⟨hk, (hkept.live hk).mp hq⟩
    · exact Or.inr ⟨rfl, hq.unique hp⟩
  refine ⟨hlive.trans h.live, ⟨by omega, by omega⟩, by simp [hpoint'], hlast, hfds, ?_, ?_, ?_, ?_⟩
  · intro k hk
    rcases Nat.lt_or_eq_of_le (Nat.le_of_lt_succ hk) with hk | rfl
    · obtain ⟨q, hq⟩ := h.used k hk
      exact ⟨q, (hkept.live hk).mpr hq⟩
    · exact ⟨p, hp⟩
  · intro k q hq
    rcases hcases k q hq with ⟨-, hold⟩ | ⟨rfl, rfl⟩
    · have hlt := h.data k q hold
      omega
    · omega
  · intro j k q q' hjk hq hq'
    rcases hcases j q hq with ⟨hj, hold⟩ | ⟨rfl, rfl⟩ <;>
      rcases hcases k q' hq' with ⟨hk, hold'⟩ | ⟨rfl, rfl⟩
    · exact h.order j k q q' hjk hold hold'
    · have hlt := h.data j q hold
      omega
    · omega
    · omega
  · intro j k q q' hq hq' heq
    rcases hcases j q hq with ⟨hj, hold⟩ | ⟨rfl, rfl⟩ <;>
      rcases hcases k q' hq' with ⟨hk, hold'⟩ | ⟨rfl, rfl⟩
    · exact h.pids j k q q' hold hold' heq
    · exact absurd heq (hpid j q hold)
    · exact absurd heq.symm (hpid k q' hold')
    · rfl

/-- The call for the next worker. -/
theorem startWorker_keeps {f : Family Master Worker} {i : Nat} {ans : SpawnAnswers} {m' : Master}
    {made : Option Worker} (h : Laws.Linked (Master.Inv R) (Master.Tied R) f)
    (hadmits : SystemAdmits f (.parent (.go ans))) (hpoint : f.parent.point = .starting i)
    (hi : i < 2) (hstart : f.parent.startWorker i ans = some (m', made)) :
    m'.Inv R (f.children ++ made.toList).length ∧
      (∀ k w, f.children[k]? = some w → m'.Tied R k w) ∧
        ∀ w, made = some w → m'.Tied R f.children.length w := by
  obtain ⟨hpair, hpids⟩ := hadmits
  obtain ⟨hinv, htied⟩ := h
  have hlast := hinv.last
  have hsmall : f.children.length < maxProcesses := by
    have hnext := hinv.next
    simp only [hpoint, MasterPoint.next] at hnext
    unfold maxProcesses
    omega
  obtain ⟨r, t, hrun, hframe, hr⟩ := spawnWorker_spec i ans hlast hsmall hinv.used hinv.fds
  unfold Master.startWorker at hstart
  simp only [hrun, Option.bind_eq_bind, Option.bind_some, Option.some.injEq,
    Prod.mk.injEq] at hstart
  obtain ⟨rfl, hmade⟩ := hstart
  have hkept : f.parent.table.KeptIn f.children.length t := by
    refine ⟨hlast, ?_, fun k hk => hframe k (Nat.ne_of_lt hk)⟩
    rcases hr with ⟨-, -, h', -⟩ | ⟨-, -, -, -, -, -, h', -⟩ <;> omega
  refine ⟨?_, fun k w hw => (htied k w hw).kept hkept (List.getElem?_eq_some_iff.mp hw).1, ?_⟩
  · rcases hr with ⟨e, rfl, hlast', hfds⟩ |
      ⟨pid, tf, p, rfl, hfork, htf, hlast', hfds, hp, hrec, -⟩
    · obtain rfl : none = made := hmade
      rw [Option.toList_none, List.append_nil]
      exact hinv.failed hpoint hi rfl rfl hkept hlast' hfds
    · obtain rfl : some (Worker.start pid i f.parent.flags tf) = made := by
        rw [← hmade, htf]
        rfl
      rw [Option.toList_some, List.length_append, List.length_singleton]
      obtain ⟨-, hnew⟩ := hpids pid hfork
      refine hinv.forked hpoint hi rfl rfl hkept hlast' ?_ hp hrec.data ?_
      · intro fd hfd
        rcases hfds with heq | ⟨a, b, hab, heq⟩
        · exact hinv.fds fd (heq ▸ hfd)
        · obtain ⟨ha, hb, -⟩ := hpair a b hab
          simp only [heq, List.mem_cons] at hfd
          rcases hfd with rfl | rfl | hfd
          · exact ha
          · exact hb
          · exact hinv.fds fd hfd
      · intro k q hq heq
        have hk : k < f.children.length := hlast ▸ hq.lt
        obtain ⟨⟨q', hq', hrec'⟩, -, -⟩ := htied k _ (List.getElem?_eq_getElem hk)
        obtain rfl := hq.unique hq'
        exact hnew _ (List.getElem_mem hk)
          (Int.ofNat.inj (hrec'.pid.symm.trans (heq.trans hrec.pid)))
  · rintro w rfl
    rcases hr with ⟨e, rfl, -⟩ | ⟨pid, tf, p, rfl, -, htf, -, -, hp, hrec, hseen⟩
    · cases hmade
    · rw [htf] at hmade
      obtain rfl := Option.some.inj hmade
      refine ⟨⟨p, hp, ?_⟩, hseen, by simp [Worker.start]⟩
      exact { hrec with channel := rfl }

/-- Every step keeps what ties the processes together: the master's invariant, and the tie to each
of its workers. -/
theorem histories_linked {pid : Nat} {flags : SignalFlags} {fds : List Int}
    (hfds : ∀ fd ∈ fds, 0 ≤ fd) {ms : List (Family.Move (Input SpawnAnswers) (Input Int))}
    {f : Family Master Worker} (h : R.Histories pid flags fds ms f) :
    Laws.Linked (Master.Inv R) (Master.Tied R) f := by
  refine Laws.Run.links ?_ ?_ ?_ h
  · have hnone : ∀ k p, ¬ (ProcessTable.start fds).Live k p :=
      fun k p hp => absurd hp.lt (Nat.not_lt_zero k)
    exact ⟨rfl, ⟨Nat.zero_le _, Nat.zero_le _⟩, by simp [Master.start], rfl, hfds,
      fun k hk => absurd hk (Nat.not_lt_zero k), fun k p hp => absurd hp (hnone k p),
      fun j k p q _ hp => absurd hp (hnone j p), fun j k p q hp => absurd hp (hnone j p)⟩
  · intro f x m' made hlinked hadmits hstep
    rcases Master.step_cases hstep with ⟨rfl, hquiet⟩ | ⟨i, ans, rfl, hpoint, hi, hstart⟩
    · refine ⟨?_, ?_, by simp⟩
      · rw [Option.toList_none, List.append_nil]
        exact hlinked.parent.quiet hquiet
      · intro k w hw
        obtain ⟨hrecord, hseen, hended⟩ := hlinked.children k w hw
        refine ⟨?_, ?_, hended⟩
        all_goals rw [hquiet.table]
        · exact hrecord
        · exact hseen
    · exact startWorker_keeps hlinked hadmits hpoint hi hstart
  · intro m k w y w' htied hstep
    exact htied.child_step hstep

end

end Capwap
