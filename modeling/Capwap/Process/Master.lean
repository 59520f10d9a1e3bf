/-
# The workers that are configured and the workers that are started

`main` ends with `cw_init_cycle` and, on the cycle it returns, `cw_master_process_cycle`, which
starts the workers and then waits for signals.  The number of workers is in the configuration of
the core module (`Cycle.workerProcesses`), but the call that should read it is commented out and
has the constant 2 in its place.

`startWorkers_spec` is what the loop does for any number of workers: the calls carry the indices
in order, and when all of them succeed on an empty table, worker `i` is in slot `i`.  So the
configured workers are started just when two are configured (`startsConfigured_iff`).
-/
import Capwap.Cycle.Init
import Capwap.Process.Supervisor

namespace Capwap

/-! ## 1. The master process

The functions of this section are the master alone, with the answers of the system as arguments.  A
signal is seen only through the two flags, which are looked at once after each `sigsuspend`. -/

/-- What the master process does, with what `cw_spawn_process` returns. -/
inductive MasterEvent
  | spawn (call : SpawnCall) (pid : Int)
  | sigsuspend
  | exit
deriving DecidableEq, Repr

/-- The address of `cw_worker_process_cycle`. -/
def workerProcessCycle : Nat := 0x4100

/-- The loop of `cw_start_worker_processes` from `i` on, with `n` rounds to go; `answers i` is what
the system answers to the call for worker `i`.  What a call returns is not looked at. -/
def startWorkers (type : Int) (answers : Nat → SpawnAnswers) :
    Nat → Nat → ProcessTable → Option (List MasterEvent × ProcessTable)
  | 0, _, t => some ([], t)
  | n + 1, i, t => do
    let call : SpawnCall :=
      { proc := workerProcessCycle, data := i, name := "worker process", respawn := type }
    let (r, t) ← spawnProcess call (answers i) t
    let (events, t) ← startWorkers type answers n (i + 1) t
    some (.spawn call (spawnPid r) :: events, t)

/-- `cw_start_worker_processes`. -/
def startWorkerProcesses (n type : Int) (answers : Nat → SpawnAnswers) (t : ProcessTable) :
    Option (List MasterEvent × ProcessTable) := startWorkers type answers n.toNat 0 t

/-- The rounds of the loop; `signals` are `cw_terminate` and `cw_quit` after each
`sigsuspend`. -/
def masterRounds (live : Nat) : List (Bool × Bool) → List MasterEvent
  | [] => []
  | (terminate, quit) :: signals =>
    .sigsuspend :: if live = 0 ∧ (terminate ∨ quit) then [.exit] else masterRounds live signals

/-- `cw_master_process_cycle`, for as many rounds as there are `signals`.  The number of workers is
the constant of the source. -/
def masterProcessCycle (answers : Nat → SpawnAnswers) (signals : List (Bool × Bool))
    (t : ProcessTable) : Option (List MasterEvent × ProcessTable) := do
  -- `ccf->worker_processes` is commented out
  let (events, t) ← startWorkerProcesses 2 processRespawn answers t
  some (events ++ masterRounds 1 signals, t)

/-! ## 2. What should be started

The property is about two parts of a run that do not know of each other: the number in the
configuration of the cycle, and the calls that are made.  It asks that the second is the first, and
that, when every call succeeds, the table shows it. -/

/-- `worker_processes` in the configuration of the core module, `CW_CONF_UNSET` where nothing has
set it. -/
def Cycle.workerProcesses (cycle : Cycle) (w : Configured Machine) : Int :=
  (w.core (w.slots (cycle.confCtx + sizeofPointer * 0))).workerProcesses

/-- The data indices of the calls before the first `sigsuspend`. -/
def spawnedData : List MasterEvent → List Nat
  | .spawn call _ :: events => call.data :: spawnedData events
  | _ => []

/-- Every call before the first `sigsuspend` succeeds. -/
def AllSpawned : List MasterEvent → Prop
  | .spawn _ pid :: events => pid ≠ invalidPid ∧ AllSpawned events
  | _ => True

/-- The slots in use are the first `n`, and slot `i` has the respawnable worker `i`. -/
structure Workers (n : Nat) (t : ProcessTable) : Prop where
  last : t.last = n
  slot : ∀ i, i < n → ∃ p, t.Live i p ∧ p.data = i ∧ p.respawn = true

/-- The master starts `n` workers, with the indices from 0 on; and if all calls succeed, they are
in the first `n` slots. -/
structure WorkersStarted (n : Int) (events : List MasterEvent) (t : ProcessTable) : Prop where
  count : ((spawnedData events).length : Int) = n
  order : spawnedData events = List.range (spawnedData events).length
  table : AllSpawned events → Workers (spawnedData events).length t

section
variable (A : Alignment) (ncpu : Int) (depth : Nat) (old : Cycle)

/-- The end of `main`: the cycle, and what the master does with it.  Before that, `main` fails or
has touched neither the process table nor the modules' configuration. -/
def mainRun (w₀ : Configured Host) (answers : Nat → SpawnAnswers) (signals : List (Bool × Bool))
    (t : ProcessTable) :
    Option (Cycle × Configured Machine × List MasterEvent × ProcessTable) :=
  match initCycle A (cwModules A ncpu) noCustom depth old w₀ with
  | .failed _ => none
  | .returned cycle w => (masterProcessCycle answers signals t).map fun r => (cycle, w, r)

/-- In a process with the descriptors `fds`, the configured workers are started, whatever the
system answers to the calls for them, and whatever signals come. -/
def StartsConfigured (w₀ : Configured Host) (fds : List Int) : Prop :=
  ∀ (answers : Nat → SpawnAnswers) (signals : List (Bool × Bool)),
    (∀ i a b, (answers i).socketpair = some (a, b) → 0 ≤ a ∧ 0 ≤ b) →
    ∃ cycle w events t,
      mainRun A ncpu depth old w₀ answers signals (.start fds) = some (cycle, w, events, t) ∧
        WorkersStarted (cycle.workerProcesses w) events t

end

/-! ## 3. What is started -/

section
variable {type : Int} {answers : Nat → SpawnAnswers}

/-- A slot that is in use stays as it is when a child is forked into another. -/
theorem ProcessTable.Spawned.keeps {t t' : ProcessTable} {s i : Nat} {pair : Option (Int × Int)}
    {c : Child} {p : Process} (h : t.Spawned t' s pair c) (hi : i ≠ s) (hlive : t.Live i p) :
    t'.Live i p := by
  refine ⟨?_, (h.frame i hi).trans hlive.read_eq, hlive.used⟩
  have hlast := h.last
  have := hlive.lt
  split at hlast <;> omega

/-- A worker is forked into the first slot that is not in use, which is the one behind the workers
there are. -/
theorem Workers.spawned {n pid : Nat} {t t' : ProcessTable} {s : Nat} {call : SpawnCall}
    {ans : SpawnAnswers} (h : Workers n t) (hle : s ≤ t.last) (hfree : ∀ p, ¬ t.Live s p)
    (hsp : t.Spawned t' s ans.socketpair (call.child ans pid)) (hdata : call.data = n)
    (htype : call.respawn = processRespawn) : Workers (n + 1) t' := by
  obtain rfl : s = n := by
    rw [h.last] at hle
    rcases Nat.lt_or_eq_of_le hle with hlt | heq
    · obtain ⟨p, hlive, -⟩ := h.slot s hlt
      exact absurd hlive (hfree p)
    · exact heq
  have hlast : t'.last = s + 1 := by
    rw [hsp.last, if_pos h.last.symm, h.last]
  refine ⟨hlast, fun i hi => ?_⟩
  rcases Nat.lt_or_eq_of_le (Nat.le_of_lt_succ hi) with hlt | rfl
  · obtain ⟨p, hlive, hp⟩ := h.slot i hlt
    exact ⟨p, hsp.keeps (Nat.ne_of_lt hlt) hlive, hp⟩
  · obtain ⟨q, hread, hrec⟩ := hsp.slot
    have hused : q.pid ≠ -1 := by
      have hpid : q.pid = (pid : Int) := hrec.pid
      omega
    have hbits : (q.respawn, q.justSpawn, q.detached) = (true, false, false) :=
      hrec.bits _ (by simp [SpawnCall.child, htype, respawnBits])
    refine ⟨q, ⟨by omega, hread, hused⟩, hrec.data.trans hdata, ?_⟩
    exact congrArg Prod.fst hbits

/-- The loop, from a table with at most `maxProcesses` slots in use.  The induction is on the
rounds to go, and the workers so far are in the first slots. -/
theorem startWorkers_spec
    (hanswers : ∀ i a b, (answers i).socketpair = some (a, b) → 0 ≤ a ∧ 0 ≤ b) :
    ∀ (n i : Nat) (t : ProcessTable), t.last ≤ maxProcesses → (∀ fd ∈ t.fds, 0 ≤ fd) →
      ∃ events t', startWorkers processRespawn answers n i t = some (events, t') ∧
        ∀ rest, spawnedData rest = [] →
          spawnedData (events ++ rest) = List.range' i n ∧
            (AllSpawned (events ++ rest) → Workers i t → Workers (i + n) t') := by
  intro n
  induction n with
  | zero =>
    intro i t _ _
    refine ⟨[], t, rfl, ?_⟩
    intro rest hrest
    exact ⟨hrest, fun _ ht => ht⟩
  | succ n ih =>
    intro i t hlast hfds
    let call : SpawnCall := { proc := workerProcessCycle, data := i, name := "worker process",
                              respawn := processRespawn }
    have hneg : call.respawn < 0 := show processRespawn < 0 by decide
    obtain ⟨s, r, t₁, hle, hfree, hrun, hr⟩ := spawnProcess_spec (answers i) hneg hlast hfds
    -- the table is as good afterwards, whether the call succeeds or not
    have hnext : t₁.last ≤ maxProcesses ∧ ∀ fd ∈ t₁.fds, 0 ≤ fd := by
      rcases hr with ⟨e, -, hun⟩ | ⟨pid, -, -, hsp⟩
      · rw [hun.last, hun.fds]
        exact ⟨hlast, hfds⟩
      · constructor
        · have h := hsp.last
          have := hsp.bound
          split at h <;> omega
        · intro fd hfd
          rcases hsp.fds with h | ⟨a, b, hab, h⟩
          · exact hfds fd (h ▸ hfd)
          · obtain ⟨ha, hb⟩ := hanswers i a b hab
            rw [h, List.mem_cons, List.mem_cons] at hfd
            rcases hfd with rfl | rfl | hfd
            · exact ha
            · exact hb
            · exact hfds fd hfd
    obtain ⟨events, t', hrec, hevents⟩ := ih (i + 1) t₁ hnext.1 hnext.2
    refine ⟨.spawn call (spawnPid r) :: events, t', ?_, ?_⟩
    · simp only [startWorkers, call, hrun, hrec, Option.bind_eq_bind, Option.bind_some]
    intro rest hrest
    obtain ⟨hdata, htable⟩ := hevents rest hrest
    constructor
    · rw [List.cons_append, spawnedData, hdata, List.range'_succ]
    · rintro ⟨hpid, hall⟩ hworkers
      have hfilled : Workers (i + 1) t₁ := by
        rcases hr with ⟨e, rfl, -⟩ | ⟨pid, rfl, -, hsp⟩
        · exact absurd rfl hpid
        · exact hworkers.spawned hle hfree hsp rfl rfl
      have hdone := htable hall hfilled
      rwa [Nat.add_right_comm, Nat.add_assoc] at hdone

theorem spawnedData_rounds (live : Nat) : ∀ signals, spawnedData (masterRounds live signals) = []
  | [] => rfl
  | (_, _) :: _ => rfl

/-- The master starts two workers, whatever the configuration says. -/
theorem masterProcessCycle_spec {fds : List Int} (hfds : ∀ fd ∈ fds, 0 ≤ fd)
    (hanswers : ∀ i a b, (answers i).socketpair = some (a, b) → 0 ≤ a ∧ 0 ≤ b)
    (signals : List (Bool × Bool)) :
    ∃ events t, masterProcessCycle answers signals (.start fds) = some (events, t) ∧
      WorkersStarted 2 events t := by
  obtain ⟨events, t, hrun, hevents⟩ :=
    startWorkers_spec hanswers 2 0 (.start fds) (Nat.zero_le _) hfds
  obtain ⟨hdata, htable⟩ := hevents _ (spawnedData_rounds 1 signals)
  refine ⟨events ++ masterRounds 1 signals, t, ?_, ?_⟩
  · have hloop : startWorkerProcesses 2 processRespawn answers (.start fds) = some (events, t) :=
      hrun
    simp only [masterProcessCycle, hloop, Option.bind_eq_bind, Option.bind_some]
  · have hempty : Workers 0 (.start fds) := ⟨rfl, fun i hi => absurd hi (Nat.not_lt_zero i)⟩
    refine ⟨?_, ?_, fun hall => ?_⟩
    · rw [hdata]
      rfl
    · rw [hdata]
      rfl
    · rw [hdata]
      exact htable hall hempty

/-- What two runs say about the number of workers is the same. -/
theorem WorkersStarted.unique {n n' : Int} {events : List MasterEvent} {t : ProcessTable}
    (h : WorkersStarted n events t) (h' : WorkersStarted n' events t) : n = n' :=
  h.count.symm.trans h'.count

variable {A : Alignment} {ncpu : Int} {depth : Nat} {old : Cycle} {w₀ : Configured Host}
  {cycle : Cycle} {w : Configured Machine} {fds : List Int}

/-- Where a cycle is returned, the run is that of the master, from the table it is given. -/
theorem mainRun_eq
    (hrun : initCycle A (cwModules A ncpu) noCustom depth old w₀ = .returned cycle w)
    {signals : List (Bool × Bool)} {t t' : ProcessTable} {events : List MasterEvent}
    (hmaster : masterProcessCycle answers signals t = some (events, t')) :
    mainRun A ncpu depth old w₀ answers signals t = some (cycle, w, events, t') := by
  simp only [mainRun, hrun, hmaster, Option.map_some]

/-- Only two can be the number of workers that are configured and started. -/
theorem StartsConfigured.eq_two (h : StartsConfigured A ncpu depth old w₀ fds)
    (hrun : initCycle A (cwModules A ncpu) noCustom depth old w₀ = .returned cycle w)
    (hfds : ∀ fd ∈ fds, 0 ≤ fd) : cycle.workerProcesses w = 2 := by
  -- a system on which every call fails will do
  let answers : Nat → SpawnAnswers := fun _ => ⟨none, true, true, true, true, true, true, none⟩
  have hanswers : ∀ i a b, (answers i).socketpair = some (a, b) → 0 ≤ a ∧ 0 ≤ b := by
    rintro i a b ⟨⟩
  obtain ⟨cycle', w', events, t, hrun', hstarted⟩ := h answers [] hanswers
  obtain ⟨events', t', hmaster, htwo⟩ := masterProcessCycle_spec hfds hanswers []
  cases (mainRun_eq hrun hmaster).symm.trans hrun'
  exact hstarted.unique htwo

end

/-! ## 4. When the configured workers are started -/

/-- **The configured workers are started just when two are configured**: whatever the configuration
is, and whatever the system answers while it is read, when `cw_init_cycle` returns a cycle. -/
theorem startsConfigured_iff (A : Alignment) (ncpu : Int) (depth : Nat) (old : Cycle)
    {w₀ : Configured Host} {cycle : Cycle} {w : Configured Machine}
    (hrun : initCycle A (cwModules A ncpu) noCustom depth old w₀ = .returned cycle w)
    {fds : List Int} (hfds : ∀ fd ∈ fds, 0 ≤ fd) :
    StartsConfigured A ncpu depth old w₀ fds ↔ cycle.workerProcesses w = 2 := by
  constructor
  · exact fun h => h.eq_two hrun hfds
  · intro htwo answers signals hanswers
    obtain ⟨events, t, hmaster, hstarted⟩ := masterProcessCycle_spec hfds hanswers signals
    exact ⟨cycle, w, events, t, mainRun_eq hrun hmaster, htwo ▸ hstarted⟩

/-- The number of workers after a file has been read, or -2. -/
def workersRead (text : List UInt8) : Int :=
  match initCycle .word (cwModules .word 4) noCustom 2 sampleCycle (fileHost text) with
  | .failed _ => -2
  | .returned cycle w => cycle.workerProcesses w

theorem returned_of_workersRead {text : List UInt8} {n : Int} (h : workersRead text = n)
    (hn : n ≠ -2) : ∃ cycle w,
      initCycle .word (cwModules .word 4) noCustom 2 sampleCycle (fileHost text)
        = .returned cycle w ∧ cycle.workerProcesses w = n := by
  unfold workersRead at h
  cases hr : initCycle .word (cwModules .word 4) noCustom 2 sampleCycle (fileHost text) with
  | failed w =>
    rw [hr] at h
    exact absurd h.symm hn
  | returned cycle w =>
    rw [hr] at h
    exact ⟨cycle, w, rfl, h⟩

/-- With `worker_processes 2;` two workers are started. -/
theorem startsConfigured_iff_sample :
    StartsConfigured .word 4 2 sampleCycle (fileHost (workersFile 50)) [0, 1, 2] := by
  obtain ⟨cycle, w, hrun, hn⟩ :=
    returned_of_workersRead (show workersRead (workersFile 50) = 2 by decide +kernel) (by decide)
  exact (startsConfigured_iff .word 4 2 sampleCycle hrun (by decide)).mpr hn

/-- With `worker_processes 3;` the third worker is missing. -/
theorem threeWorkers_notStarted :
    ¬ StartsConfigured .word 4 2 sampleCycle (fileHost (workersFile 51)) [0, 1, 2] := by
  obtain ⟨cycle, w, hrun, hn⟩ :=
    returned_of_workersRead (show workersRead (workersFile 51) = 3 by decide +kernel) (by decide)
  intro h
  have htwo := h.eq_two hrun (by decide)
  omega

end Capwap
