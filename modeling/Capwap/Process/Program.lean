/-
# The program

`main` sets the log up, makes a pool, chooses the configuration file, counts the processors, numbers
the modules, sets the cycle up, installs the signals and becomes the master.  Where a step fails, it
returns 1.

No module has `init_process`, and nothing assigns to `cw_event_actions`.  So, whatever the
configuration says and whatever the system answers, the first thing a worker does is to call through
a null pointer (`main_sound`).
-/
import Capwap.Cycle.Modules
import Capwap.Cycle.Sockets
import Capwap.Process.Histories

namespace Capwap

open Family

/-! ## 1. `main`

The steps are those of the source, in its order; each has the answers of the system that it asks
for, and a failure ends the program with 1.  Whether some calls are compiled in is a matter of
`configure`, so these are parameters. -/

/-- What `configure` has found: the path of the configuration file, and whether the system can count
its processors. -/
structure Build where
  confPath : List UInt8
  scNprocessors : Bool

/-- What the system answers to `main`, apart from what `cw_init_cycle` asks, and what the signals do
when the program starts. -/
structure Startup where
  pid : Nat
  zlogInit : Bool
  zlogCategory : Bool
  nprocessors : Int
  sigaction : Nat → Bool
  disposition : Nat → Disposition

/-- `cw_log_init`. -/
def logInit (s : Startup) : Bool := s.zlogInit && s.zlogCategory

/-- `cw_process_options`; `confFile` is the global `cw_conf_file`. -/
def processOptions (B : Build) (confFile : Option (List UInt8)) : Word :=
  match confFile with
  | some data => ⟨(cStr data).length, data⟩
  | none => ⟨B.confPath.length, B.confPath ++ [0]⟩

/-- `cw_os_init`, which sets `cw_ncpu`. -/
def osInit (B : Build) (s : Startup) (ncpu : Int) : Int :=
  let ncpu := if B.scNprocessors ∧ ncpu = 0 then s.nprocessors else ncpu
  if ncpu < 1 then 1 else ncpu

/-- Whether a module has `init_process`: none has. -/
def CycleModule.initProcess (_ : CycleModule) : Bool := false

/-- The steps at which `main` can fail. -/
inductive MainError
  | log
  | pool
  | cycle
  | signals (line : LogLine)
deriving DecidableEq, Repr

/-- What `main` returns then. -/
def MainError.code (_ : MainError) : Int := 1

/-- The program when it enters `cw_master_process_cycle`: the cycle and the machine below it, and
what the signals do. -/
structure Running where
  cycle : Cycle
  world : Configured Machine
  master : Master
  runtime : Runtime

/-- `main`, up to `cw_master_process_cycle`.  `cw_conf_file` and `cw_ncpu` are as the program finds
them, and so is `cw_event_actions`. -/
def main (B : Build) (A : Alignment) (depth : Nat) (s : Startup) (w₀ : Configured Host) :
    Except MainError Running :=
  if logInit s = false then .error .log
  else
    match createPool 1024 w₀.sys.heap with
    | (none, _) => .error .pool
    | (some _, heap) =>
      let old : Cycle := ⟨0, 0, processOptions B none, []⟩
      let mods := (cwModuleTable A (osInit B s 0)).preinit
      match initCycle A mods noCustom depth old { w₀ with sys.heap := heap } with
      | .failed _ => .error .cycle
      | .returned cycle w =>
        match initSignals s.sigaction s.disposition with
        | (.error line, _) => .error (.signals line)
        | (.ok _, disposition) =>
          .ok {
            cycle := cycle
            world := w
            master := Master.start s.pid .none w.sys.kernel.live
            runtime :=
              { disposition := disposition
                hooks := mods.map CycleModule.initProcess
                polls := false } }

/-! ## 2. What `main` hands over

The theorems about the processes ask for a few things at their start: that the descriptors are
numbers from 0 on, and that the signals are installed.  Here it is shown that `main` provides
them. -/

/-- The listening sockets are descriptors. -/
theorem sockets_nonneg {ls : List Listening} {k : Kernel} (h : ∀ fd ∈ k.live, 0 ≤ fd) :
    ∀ fd ∈ (openListeningSockets ls k).2.2.live, 0 ≤ fd := by
  obtain ⟨shut, hdid, hperm⟩ := sockets_ledger ls k
  intro fd hfd
  rw [hdid.live, List.mem_append, List.mem_reverse] at hfd
  rcases hfd with hfd | hfd
  · have hmem := hperm.mem_iff.mpr (List.mem_append_right shut hfd)
    obtain ⟨⟨l, q⟩, -, hsocket⟩ := List.mem_filterMap.mp hmem
    obtain ⟨-, rfl, hne, -⟩ := socketOf_some hsocket
    unfold Kernel.openFd at hne ⊢
    split
    · rename_i hopen
      exact hopen.1
    · rename_i hopen
      exact absurd (by rw [if_neg hopen]) hne
  · exact h fd hfd

/-- What a cycle that has been set up leaves open are descriptors: numbers from 0 on. -/
theorem initCycle_fds {A : Alignment} {mods : List CycleModule}
    {custom : Nat → View → List Word → Configured Machine → Act (Configured Machine)}
    (hmods : ModulesUse A mods custom) {depth : Nat} {old : Cycle} {w₀ : Configured Host}
    (hheap : w₀.sys.heap.Ok) (hkernel : w₀.sys.kernel.Ok)
    (hfds : ∀ fd ∈ w₀.sys.kernel.live, 0 ≤ fd) {cycle : Cycle} {w : Configured Machine}
    (h : initCycle A mods custom depth old w₀ = .returned cycle w) :
    ∀ fd ∈ w.sys.kernel.live, 0 ≤ fd := by
  unfold initCycle initSteps at h
  cases hc : createPool cyclePoolSize w₀.sys.heap with
  | mk pool heap =>
    rw [hc] at h
    cases pool with
    | none => cases h
    | some pool =>
      have hheld := setUp_held hmods depth old (Machine.Held.start (A := A) hheap hkernel hc)
      simp only at h
      cases hs : setUp A mods custom depth old (w₀.withPool pool heap) with
      | error e w₁ =>
        rw [hs] at h
        cases h
      | ok cycle₁ w₁ =>
        rw [hs] at h hheld
        simp only at h hheld
        split at h
        · obtain ⟨-, rfl⟩ := InitResult.returned.inj h
          refine sockets_nonneg ?_
          rw [hheld.kernel.live, List.nil_append]
          exact hfds
        · cases h

/-- What the master starts with. -/
theorem main_running {B : Build} {A : Alignment} {depth : Nat} {s : Startup}
    {w₀ : Configured Host} {r : Running} (hheap : w₀.sys.heap.Ok) (hkernel : w₀.sys.kernel.Ok)
    (hfds : ∀ fd ∈ w₀.sys.kernel.live, 0 ≤ fd) (h : main B A depth s w₀ = .ok r) :
    (r.master = Master.start s.pid .none r.world.sys.kernel.live ∧
        ∀ fd ∈ r.world.sys.kernel.live, 0 ≤ fd) ∧
      initSignals s.sigaction s.disposition = (.ok (), r.runtime.disposition) ∧
      r.runtime.hooks = [false] ∧ r.runtime.polls = false := by
  unfold main at h
  split at h
  · cases h
  cases hc : createPool 1024 w₀.sys.heap with
  | mk pool heap =>
    rw [hc] at h
    cases pool with
    | none => cases h
    | some pool =>
      have hdvd : A.bytes ∣ 1024 := Nat.dvd_trans A.bytes_dvd ⟨64, rfl⟩
      obtain ⟨hinv, -⟩ := Pool.Inv.of_create hheap (by decide) hdvd hc
      simp only at h
      split at h
      · cases h
      · rename_i cycle w hinit
        split at h
        · cases h
        · rename_i disposition hsig
          obtain rfl := Except.ok.inj h
          refine ⟨⟨rfl, ?_⟩, hsig, rfl, rfl⟩
          refine initCycle_fds (cwModules_use A (osInit B s 0)) ?_ ?_ ?_ hinit
          · exact hinv.heap_ok
          · exact hkernel
          · exact hfds

/-! ## 3. What becomes of it -/

/-- **The whole program**, once `main` has entered `cw_master_process_cycle`: in any order of the
steps and of the signals, the processes are as they should be, but each worker ends with its third
step at the latest, by a call through a null pointer or by a signal, and the master keeps it in its
table. -/
theorem main_sound {B : Build} {A : Alignment} {depth : Nat} {s : Startup}
    {w₀ : Configured Host} {r : Running} (hheap : w₀.sys.heap.Ok) (hkernel : w₀.sys.kernel.Ok)
    (hfds : ∀ fd ∈ w₀.sys.kernel.live, 0 ≤ fd) (h : main B A depth s w₀ = .ok r)
    {ms : List (Family.Move (Input SpawnAnswers) (Input Int))} {f : Family Master Worker}
    (hrun : r.runtime.laws.Run SystemAdmits r.master ms f) :
    ProcessesSound r.runtime s.disposition f ∧
      ∀ k w, f.children[k]? = some w →
        goes (childMoves k ms) ≤ 3 ∧
        (goes (childMoves k ms) = 3 → ∃ how, w.point = .ended how) ∧
        (∀ how, w.point = .ended how → how = .fault ∨ ∃ signo, how = .signal signo) ∧
        ∃ p, f.parent.table.Live k p ∧ p.Records (w.asChild p.channel) := by
  obtain ⟨⟨hmaster, hnonneg⟩, hsig, hhooks, hpolls⟩ := main_running hheap hkernel hfds h
  rw [hmaster] at hrun
  have hsound := histories_sound hsig hnonneg hrun
  refine ⟨hsound, fun k w hw => ?_⟩
  obtain ⟨hle, hended, -, hrecord⟩ := worker_gone hpolls hnonneg hrun hw
  rw [hhooks] at hle hended
  refine ⟨hle, hended, fun how hhow => ?_, hrecord⟩
  rcases hsound.worker w (List.mem_of_getElem? hw) how hhow with
    ⟨signo, rfl, -⟩ | ⟨-, hmem⟩ | ⟨rfl, -⟩
  · exact Or.inr ⟨signo, rfl⟩
  · rw [hhooks] at hmem
    exact absurd hmem (by decide)
  · exact Or.inl rfl

/-! ## 4. A run -/

def sampleBuild : Build := { confPath := [102], scNprocessors := true }

def sampleStartup : Startup :=
  { pid := 10, zlogInit := true, zlogCategory := true, nprocessors := 4
    sigaction := fun _ => true, disposition := fun _ => .terminate }

/-- The descriptors that are open when the master starts, with `worker_processes 3;`. -/
def sampleFds : Option (List Int) :=
  match main sampleBuild .word 2 sampleStartup (fileHost (workersFile 51)) with
  | .ok r => some r.world.sys.kernel.live
  | .error _ => none

theorem sampleFds_eq : sampleFds = some [] := by decide +kernel

/-- Two of the three workers that are configured may be forked.  The first is, ends, and is in the
table. -/
theorem main_sound_sample : ∃ r f w how p,
    main sampleBuild .word 2 sampleStartup (fileHost (workersFile 51)) = .ok r ∧
      r.runtime.laws.Run SystemAdmits r.master sampleMoves f ∧ f.children[0]? = some w ∧
        w.point = .ended how ∧ f.parent.table.Live 0 p ∧ p.Records (w.asChild p.channel) := by
  have hheap : (fileHost (workersFile 51)).sys.heap.Ok := Heap.fresh_ok _
  have hkernel : (fileHost (workersFile 51)).sys.kernel.Ok := ⟨List.Perm.refl _, rfl⟩
  have hfds : ∀ fd ∈ (fileHost (workersFile 51)).sys.kernel.live, 0 ≤ fd := by
    rintro fd ⟨⟩
  have hlive := sampleFds_eq
  unfold sampleFds at hlive
  split at hlive
  · rename_i r hmain
    obtain ⟨⟨hmaster, -⟩, hsig, hhooks, hpolls⟩ := main_running hheap hkernel hfds hmain
    have hdisposition : r.runtime.disposition = sampleRuntime.disposition :=
      (Prod.mk.inj hsig).2.symm
    have hruntime : r.runtime = sampleRuntime := Runtime.ext hdisposition hhooks hpolls
    obtain ⟨f, w, hrun, hw, -⟩ := sampleMoves_run
    have hrun' : r.runtime.laws.Run SystemAdmits r.master sampleMoves f := by
      rw [hruntime, hmaster, Option.some.inj hlive]
      exact hrun
    obtain ⟨-, hworkers⟩ := main_sound hheap hkernel hfds hmain hrun'
    obtain ⟨-, hended, -, p, hp, hrec⟩ := hworkers 0 w hw
    obtain ⟨how, hhow⟩ := hended rfl
    exact ⟨r, f, w, how, p, hmain, hrun', hw, hhow, hp, hrec⟩
  · cases hlive

end Capwap
