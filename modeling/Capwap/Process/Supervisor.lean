/-
# The process table under a supervisor

A supervisor calls `cw_spawn_process` and marks the slots of children that have exited as free.
What one call does to the table is `spawnProcess_spec`: it fails and leaves the used slots and the
descriptors as they were, or it fills one slot that was not in use.  `Supervisor.Inv` follows from
that for every run: the slots in use record the children that were forked, one each.
-/
import Capwap.Process.Spawn
import Mathlib.Data.List.Nodup

namespace Capwap

/-! ## 1. Reading and writing slots

A slot is in use when it is below `cw_last_process` and its pid is not -1.  The search for a free
slot is described by what it ends with: a slot that is not in use, at most `cw_last_process`. -/

namespace ProcessTable

variable {t t' : ProcessTable} {i j : Nat} {p q : Process}

theorem read_of_lt (t : ProcessTable) (h : i < maxProcesses) :
    t.read i = some (t.processes ⟨i, h⟩) := dif_pos h

theorem write_of_lt (t : ProcessTable) (h : i < maxProcesses) (p : Process) :
    t.write i p = some { t with processes := Function.update t.processes ⟨i, h⟩ p } := dif_pos h

/-- Only the element assigned to changes. -/
theorem read_update (h : i < maxProcesses) (p : Process) (j : Nat) :
    read { t with processes := Function.update t.processes ⟨i, h⟩ p } j
      = if j = i then some p else t.read j := by
  unfold read
  by_cases hj : j < maxProcesses
  · by_cases hji : j = i
    · subst hji
      simp [hj]
    · simp [hj, hji, Function.update_of_ne, Fin.ext_iff]
  · have hji : j ≠ i := fun he => hj (he ▸ h)
    simp [hj, hji]

/-- Slot `i` is in use, and holds `p`. -/
structure Live (t : ProcessTable) (i : Nat) (p : Process) : Prop where
  lt : i < t.last
  read_eq : t.read i = some p
  used : p.pid ≠ -1

/-- The search stays inside the slots in use, and what it finds before their end is free.  The
induction is on the slots to go. -/
theorem freeSlot_spec (t : ProcessTable) : ∀ (n s : Nat), s + n ≤ maxProcesses →
    ∃ s', t.freeSlot n s = some s' ∧ s' ≤ s + n ∧
      (s' = s + n ∨ ∃ p, t.read s' = some p ∧ p.pid = -1) := by
  intro n
  induction n with
  | zero =>
    intro s _
    exact ⟨s, rfl, Nat.le_refl _, Or.inl rfl⟩
  | succ n ih =>
    intro s h
    have hs : s < maxProcesses := by omega
    unfold freeSlot
    simp only [t.read_of_lt hs]
    by_cases hfree : (t.processes ⟨s, hs⟩).pid = -1
    · rw [if_pos hfree]
      exact ⟨s, rfl, by omega, Or.inr ⟨_, t.read_of_lt hs, hfree⟩⟩
    · rw [if_neg hfree]
      obtain ⟨s', hs', hle, hend⟩ := ih (s + 1) (by omega)
      exact ⟨s', hs', by omega, hend.imp (by omega) id⟩

/-- The slot the search ends at is not in use. -/
theorem freeSlot_not_live (t : ProcessTable) (h : t.last ≤ maxProcesses) :
    ∃ s, t.freeSlot t.last 0 = some s ∧ s ≤ t.last ∧ ∀ p, ¬ t.Live s p := by
  obtain ⟨s, hs, hle, hend⟩ := t.freeSlot_spec t.last 0 (by omega)
  refine ⟨s, hs, by omega, ?_⟩
  rintro p ⟨hlt, hread, hused⟩
  rcases hend with rfl | ⟨q, hq, hfree⟩
  · omega
  · rw [hread] at hq
    exact hused (Option.some.inj hq ▸ hfree)

end ProcessTable

/-! ## 2. What one call does

A call is described without its steps, by two structures: what a call that fails may leave behind
(`Unspawned`), and what one that succeeds does (`Spawned`).  Later proofs start from these. -/

/-- A child that was forked: its pid, what it was forked for, and its channel. -/
structure Child where
  pid : Nat
  proc : Nat
  data : Nat
  name : String
  respawn : Int
  channel : Int × Int
deriving DecidableEq, Repr

/-- The child of a call that succeeds; a detached one has no channel. -/
def SpawnCall.child (call : SpawnCall) (ans : SpawnAnswers) (pid : Nat) : Child :=
  { pid := pid, proc := call.proc, data := call.data, name := call.name, respawn := call.respawn
    channel := if call.respawn = processDetached then (-1, -1) else ans.socketpair.getD (-1, -1) }

/-- The bits `respawn`, `just_spawn` and `detached` each code stands for. -/
def respawnBits : List (Int × Bool × Bool × Bool) :=
  [(processNoRespawn, false, false, false), (processJustSpawn, false, true, false),
    (processRespawn, true, false, false), (processJustRespawn, true, true, false),
    (processDetached, false, false, true)]

/-- A slot records a child. -/
structure Process.Records (p : Process) (c : Child) : Prop where
  pid : p.pid = c.pid
  proc : p.proc = c.proc
  data : p.data = c.data
  name : p.name = c.name
  channel : p.channel = c.channel
  bits : ∀ bits, (c.respawn, bits) ∈ respawnBits → (p.respawn, p.justSpawn, p.detached) = bits
  exiting : p.exiting = false
  exited : p.exited = false

/-- The switch sets the bits of the code and nothing else. -/
theorem Process.setRespawn_spec (p : Process) (respawn : Int) :
    (∀ bits, (respawn, bits) ∈ respawnBits →
      ((p.setRespawn respawn).respawn, (p.setRespawn respawn).justSpawn,
        (p.setRespawn respawn).detached) = bits) ∧
    ∃ b j d, p.setRespawn respawn = { p with respawn := b, justSpawn := j, detached := d } := by
  constructor
  · intro bits hbits
    simp only [respawnBits, List.mem_cons, Prod.mk.injEq, List.not_mem_nil, or_false] at hbits
    rcases hbits with ⟨rfl, rfl⟩ | ⟨rfl, rfl⟩ | ⟨rfl, rfl⟩ | ⟨rfl, rfl⟩ | ⟨rfl, rfl⟩ <;>
      simp [setRespawn, processNoRespawn, processJustSpawn, processRespawn, processJustRespawn,
        processDetached]
  · unfold setRespawn
    split
    · exact ⟨_, _, _, rfl⟩
    split
    · exact ⟨_, _, _, rfl⟩
    split
    · exact ⟨_, _, _, rfl⟩
    split
    · exact ⟨_, _, _, rfl⟩
    split
    · exact ⟨_, _, _, rfl⟩
    · exact ⟨_, _, _, rfl⟩

/-- The effect of a call that fails: it may leave another channel in `s`, the slot it tried, whose
pid is as it was. -/
structure ProcessTable.Unspawned (t t' : ProcessTable) (s : Nat) : Prop where
  last : t'.last = t.last
  fds : t'.fds = t.fds
  pid : (t'.read s).map Process.pid = (t.read s).map Process.pid
  frame : ∀ i, i ≠ s → t'.read i = t.read i

/-- No slot comes into use by a call that fails. -/
theorem ProcessTable.Unspawned.live {t t' : ProcessTable} {s : Nat} (h : t.Unspawned t' s)
    (hfree : ∀ p, ¬ t.Live s p) {i : Nat} {p : Process} (hlive : t'.Live i p) : t.Live i p := by
  obtain ⟨hlt, hread, hused⟩ := hlive
  rw [h.last] at hlt
  by_cases hi : i = s
  · subst hi
    have hpid := h.pid
    rw [hread, Option.map_some] at hpid
    obtain ⟨q, hq, hqp⟩ := Option.map_eq_some_iff.mp hpid.symm
    exact absurd ⟨hlt, hq, by rwa [hqp]⟩ (hfree q)
  · exact ⟨hlt, (h.frame i hi).symm.trans hread, hused⟩

/-- The effect of a call that forks `c` into slot `s`; `pair` is what `socketpair` answers.  The
slot records the child, and the others are as they were. -/
structure ProcessTable.Spawned (t t' : ProcessTable) (s : Nat) (pair : Option (Int × Int))
    (c : Child) : Prop where
  bound : s < maxProcesses
  slot : ∃ p, t'.read s = some p ∧ p.Records c
  last : t'.last = if s = t.last then t.last + 1 else t.last
  fds : t'.fds = t.fds ∨ ∃ a b, pair = some (a, b) ∧ t'.fds = a :: b :: t.fds
  frame : ∀ i, i ≠ s → t'.read i = t.read i

/-- After a call that succeeds, a slot in use is the new one or was in use before. -/
theorem ProcessTable.Spawned.live {t t' : ProcessTable} {s : Nat} {pair : Option (Int × Int)}
    {c : Child} (h : t.Spawned t' s pair c) {i : Nat} {p : Process} (hlive : t'.Live i p) :
    (i = s ∧ p.Records c) ∨ (i ≠ s ∧ t.Live i p) := by
  obtain ⟨hlt, hread, hused⟩ := hlive
  by_cases hi : i = s
  · subst hi
    obtain ⟨q, hq, hrec⟩ := h.slot
    exact Or.inl ⟨rfl, Option.some.inj (hq.symm.trans hread) ▸ hrec⟩
  · refine Or.inr ⟨hi, ?_, (h.frame i hi).symm.trans hread, hused⟩
    have hlast := h.last
    split at hlast <;> omega

/-- The slot of the child is in use: `cw_last_process` is behind it, and a pid is not -1. -/
theorem ProcessTable.Spawned.live_new {t t' : ProcessTable} {s : Nat} {pair : Option (Int × Int)}
    {c : Child} (h : t.Spawned t' s pair c) (hs : s ≤ t.last) {p : Process}
    (hp : t'.read s = some p) (hrec : p.Records c) : t'.Live s p := by
  refine ⟨?_, hp, ?_⟩
  · have hlast := h.last
    split at hlast <;> omega
  · rw [hrec.pid]
    omega

section
variable {call : SpawnCall} (ans : SpawnAnswers) {t : ProcessTable} {s : Nat}

/-- From the fork on, with the slot prepared: `p` is in it, and `fds` are open. -/
theorem forkProcess_spec (hneg : call.respawn < 0) (hs : s < maxProcesses) (p : Process)
    (channel : Int) {fds : List Int} (hpid : p.pid = (t.processes ⟨s, hs⟩).pid)
    (hclose : (fds.erase p.channel.1).erase p.channel.2 = t.fds) :
    ∃ r t', forkProcess call ans s { t with
        processes := Function.update t.processes ⟨s, hs⟩ p, channel := channel, fds := fds }
          = some (r, t') ∧
      ((∃ e, r = .error e ∧ t.Unspawned t' s) ∨
        ∃ pid, r = .ok pid ∧ ans.fork = some pid ∧ t'.fds = fds ∧
          (∃ q, t'.read s = some q ∧ q.Records
            { pid := pid, proc := call.proc, data := call.data, name := call.name,
              respawn := call.respawn, channel := p.channel }) ∧
          t'.last = (if s = t.last then t.last + 1 else t.last) ∧
          ∀ i, i ≠ s → t'.read i = t.read i) := by
  have hother : ∀ (q : Process) (n : Nat) (i : Nat), i ≠ s → ProcessTable.read
      { processes := Function.update t.processes ⟨s, hs⟩ q, last := n, slot := s,
        channel := channel, fds := fds } i = t.read i :=
    fun q n i hi => (t.read_update hs q i).trans (if_neg hi)
  have hread : ProcessTable.read { t with
      processes := Function.update t.processes ⟨s, hs⟩ p, slot := s, channel := channel,
      fds := fds } s = some p := (t.read_update hs p s).trans (if_pos rfl)
  simp only [forkProcess, hread, Option.bind_eq_bind, Option.bind_some]
  cases hfork : ans.fork with
  | none =>
    refine ⟨_, _, rfl, Or.inl ⟨_, rfl, rfl, hclose, ?_, hother p t.last⟩⟩
    rw [t.read_of_lt hs, Option.map_some, ← hpid]
    exact congrArg (Option.map Process.pid) hread
  | some pid =>
    simp only [ge_iff_le, if_neg (Int.not_le.mpr hneg), ProcessTable.write_of_lt _ hs,
      Option.bind_some, Function.update_idem]
    obtain ⟨hbits, b, j, d, heq⟩ := Process.setRespawn_spec
      { p with pid := pid, exited := false, proc := call.proc, data := call.data,
               name := call.name, exiting := false } call.respawn
    refine ⟨_, _, rfl, Or.inr ⟨pid, rfl, rfl, ?_, ?_, ?_, ?_⟩⟩
    · split <;> rfl
    · refine ⟨_, ?_, ?_, ?_, ?_, ?_, ?_, hbits, ?_, ?_⟩
      · split <;> exact (t.read_update hs _ s).trans (if_pos rfl)
      all_goals rw [heq]
    · split <;> rfl
    · intro i hi
      split <;> exact hother _ _ i hi

/-- With a slot that is not in use: the call fails, or it forks a child into the slot. -/
theorem spawnIn_spec (hneg : call.respawn < 0) (hs : s < maxProcesses)
    (hfds : ∀ fd ∈ t.fds, 0 ≤ fd) :
    ∃ r t', spawnIn call ans s t = some (r, t') ∧
      ((∃ e, r = .error e ∧ t.Unspawned t' s) ∨
        ∃ pid, r = .ok pid ∧ ans.fork = some pid ∧
          t.Spawned t' s ans.socketpair (call.child ans pid)) := by
  simp only [spawnIn, t.read_of_lt hs, Option.bind_eq_bind, Option.bind_some]
  by_cases hdet : call.respawn = processDetached
  · -- no channel: -1 is not a descriptor, so closing it changes nothing
    have hnot : (-1 : Int) ∉ t.fds := fun h => absurd (hfds _ h) (by decide)
    have hclose : (t.fds.erase (-1)).erase (-1) = t.fds := by
      rw [List.erase_of_not_mem hnot, List.erase_of_not_mem hnot]
    rw [if_neg (not_not.mpr hdet)]
    simp only [ProcessTable.write_of_lt _ hs, Option.bind_some]
    obtain ⟨r, t', hrun, hr⟩ := forkProcess_spec ans hneg hs
      { t.processes ⟨s, hs⟩ with channel := (-1, -1) } t.channel rfl hclose
    refine ⟨r, t', hrun, hr.imp id ?_⟩
    rintro ⟨pid, rfl, hfork, h1, h2, h3, h4⟩
    exact ⟨pid, rfl, hfork, hs, by simpa [SpawnCall.child, hdet] using h2, h3, Or.inl h1, h4⟩
  · rw [if_pos hdet]
    cases hpair : ans.socketpair with
    | none => exact ⟨_, _, rfl, Or.inl ⟨_, rfl, rfl, rfl, rfl, fun _ _ => rfl⟩⟩
    | some channel =>
      have hclose : ((channel.1 :: channel.2 :: t.fds).erase channel.1).erase channel.2
          = t.fds := by
        rw [List.erase_cons_head, List.erase_cons_head]
      simp only [ProcessTable.write_of_lt _ hs, Option.bind_some]
      cases hsetup : ans.setupError with
      | some e =>
        refine ⟨_, _, rfl, Or.inl ⟨e, rfl, rfl, hclose, ?_,
          fun i hi => (t.read_update hs _ i).trans (if_neg hi)⟩⟩
        rw [t.read_of_lt hs]
        exact (congrArg (Option.map Process.pid)
          ((t.read_update hs _ s).trans (if_pos rfl))).trans rfl
      | none =>
        obtain ⟨r, t', hrun, hr⟩ := forkProcess_spec ans hneg hs
          { t.processes ⟨s, hs⟩ with channel := channel } channel.2 rfl hclose
        refine ⟨r, t', hrun, hr.imp id ?_⟩
        rintro ⟨pid, rfl, hfork, h1, h2, h3, h4⟩
        refine ⟨pid, rfl, hfork, hs, ?_, h3, Or.inr ⟨_, _, rfl, h1⟩, h4⟩
        simpa [SpawnCall.child, hdet, hpair] using h2

/-- A call with a negative code: it stays inside the array and the slot it takes, if any, is not in
use.  It fails, or it forks a child and records it. -/
theorem spawnProcess_spec (hneg : call.respawn < 0) (hlast : t.last ≤ maxProcesses)
    (hfds : ∀ fd ∈ t.fds, 0 ≤ fd) :
    ∃ s r t', s ≤ t.last ∧ (∀ p, ¬ t.Live s p) ∧ spawnProcess call ans t = some (r, t') ∧
      ((∃ e, r = .error e ∧ t.Unspawned t' s) ∨
        ∃ pid, r = .ok pid ∧ ans.fork = some pid ∧
          t.Spawned t' s ans.socketpair (call.child ans pid)) := by
  obtain ⟨s, hfind, hle, hfree⟩ := t.freeSlot_not_live hlast
  simp only [spawnProcess, ge_iff_le, if_neg (Int.not_le.mpr hneg), hfind, Option.bind_eq_bind,
    Option.bind_some]
  by_cases hfull : s = maxProcesses
  · rw [if_pos hfull]
    exact ⟨s, _, _, hle, hfree, rfl, Or.inl ⟨_, rfl, rfl, rfl, rfl, fun _ _ => rfl⟩⟩
  · rw [if_neg hfull]
    obtain ⟨r, t', hrun, hr⟩ := spawnIn_spec ans hneg (s := s) (by omega) hfds
    exact ⟨s, r, t', hle, hfree, hrun, hr⟩

end

/-! ## 3. Runs

A supervisor is any program that spawns processes and marks slots as free; when it does so is left
open.  The list of the children is a history of the calls that succeeded, and the invariant is
about the slots in use and this list. -/

/-- The table, and the children forked so far. -/
structure Supervisor where
  table : ProcessTable
  children : List Child

/-- What happens in the parent. -/
inductive ProcessEvent
  | spawn (call : SpawnCall) (ans : SpawnAnswers)
  /-- the child of a slot has exited: `cw_processes[i].pid = -1` -/
  | markFree (i : Nat)

namespace Supervisor

/-- One event; `none` when `cw_processes` is accessed out of its bounds. -/
def step (s : Supervisor) : ProcessEvent → Option Supervisor
  | .spawn call ans => do
    let (r, table) ← spawnProcess call ans s.table
    match r with
    | .error _ => some { s with table := table }
    | .ok pid => some { table := table, children := call.child ans pid :: s.children }
  | .markFree i => do
    let p ← s.table.read i
    let table ← s.table.write i { p with pid := -1 }
    some { s with table := table }

/-- What the system and the supervisor may do: `socketpair` yields two descriptors that were not
open, `fork` a pid of no other child, and only slots below `cw_last_process` are marked. -/
def Admits (s : Supervisor) : ProcessEvent → Prop
  | .spawn call ans => call.respawn < 0 ∧
      (∀ a b, ans.socketpair = some (a, b) →
        0 ≤ a ∧ 0 ≤ b ∧ a ≠ b ∧ a ∉ s.table.fds ∧ b ∉ s.table.fds) ∧
      ∀ pid, ans.fork = some pid → 0 < pid ∧ ∀ c ∈ s.children, c.pid ≠ pid
  | .markFree i => i < s.table.last

/-- Reachable from the start of the program with some descriptors open. -/
inductive Reach (fds : List Int) : Supervisor → Prop
  | start : Reach fds { table := .start fds, children := [] }
  | step {s s' : Supervisor} {e : ProcessEvent} :
      Reach fds s → s.Admits e → s.step e = some s' → Reach fds s'

/-- The invariant: a slot in use records a child, no two record the same pid, and the children's
pids are distinct. -/
structure Inv (s : Supervisor) : Prop where
  bound : s.table.last ≤ maxProcesses
  fds : ∀ fd ∈ s.table.fds, 0 ≤ fd
  pids : (s.children.map Child.pid).Nodup
  records : ∀ i p, s.table.Live i p → ∃ c ∈ s.children, p.Records c
  once : ∀ i j p q, s.table.Live i p → s.table.Live j q → p.pid = q.pid → i = j

variable {s s' : Supervisor} {e : ProcessEvent}

/-- Another table that agrees on the slots in use, for the same children. -/
theorem Inv.of_live (hI : s.Inv) {t : ProcessTable} (hlast : t.last ≤ maxProcesses)
    (hfds : ∀ fd ∈ t.fds, 0 ≤ fd) (hlive : ∀ i p, t.Live i p → s.table.Live i p) :
    Inv { s with table := t } where
  bound := hlast
  fds := hfds
  pids := hI.pids
  records i p h := hI.records i p (hlive i p h)
  once i j p q hp hq := hI.once i j p q (hlive i p hp) (hlive j q hq)

/-- One event stays inside the array and keeps the invariant.  A call is one of two effects, and
marking a slot takes one out of use. -/
theorem Inv.step (hI : s.Inv) (he : s.Admits e) : ∃ s', s.step e = some s' ∧ s'.Inv := by
  cases e with
  | markFree i =>
    have hi : i < maxProcesses := Nat.lt_of_lt_of_le he hI.bound
    refine ⟨_, ?_, hI.of_live (t := { s.table with
      processes := Function.update s.table.processes ⟨i, hi⟩
        { s.table.processes ⟨i, hi⟩ with pid := -1 } }) hI.bound hI.fds ?_⟩
    · simp only [step, s.table.read_of_lt hi, ProcessTable.write_of_lt _ hi, Option.bind_eq_bind,
        Option.bind_some]
    · rintro j p ⟨hlt, hread, hused⟩
      rw [ProcessTable.read_update hi] at hread
      split at hread
      · exact absurd (Option.some.inj hread ▸ rfl) hused
      · exact ⟨hlt, hread, hused⟩
  | spawn call ans =>
    obtain ⟨hneg, hpair, hfork⟩ := he
    obtain ⟨k, r, t', hk, hfree, hrun, hr⟩ := spawnProcess_spec ans hneg hI.bound hI.fds
    rcases hr with ⟨err, rfl, hun⟩ | ⟨pid, rfl, hpid, hsp⟩
    · refine ⟨{ s with table := t' }, ?_, hI.of_live ?_ ?_ ?_⟩
      · simp only [step, hrun, Option.bind_eq_bind, Option.bind_some]
      · rw [hun.last]
        exact hI.bound
      · rw [hun.fds]
        exact hI.fds
      · exact fun i p h => hun.live hfree h
    · obtain ⟨hpos, hnew⟩ := hfork pid hpid
      -- a slot in use names a child forked before, whose pid is another
      have hother : ∀ {i p}, s.table.Live i p → p.pid ≠ pid := by
        intro i p hlive he
        obtain ⟨c, hc, hrec⟩ := hI.records i p hlive
        exact hnew c hc (Int.ofNat.inj (hrec.pid.symm.trans he))
      refine ⟨{ table := t', children := call.child ans pid :: s.children }, ?_, ?_, ?_, ?_, ?_, ?_⟩
      · simp only [step, hrun, Option.bind_eq_bind, Option.bind_some]
      · have hlast := hsp.last
        have hbound := hsp.bound
        have := hI.bound
        split at hlast <;> simp only <;> omega
      · intro fd hfd
        rcases hsp.fds with h | ⟨a, b, hab, h⟩
        · exact hI.fds fd (h ▸ hfd)
        · obtain ⟨ha, hb, -⟩ := hpair a b hab
          simp only [h, List.mem_cons] at hfd
          rcases hfd with rfl | rfl | hfd
          · exact ha
          · exact hb
          · exact hI.fds fd hfd
      · refine List.nodup_cons.mpr ⟨fun hmem => ?_, hI.pids⟩
        obtain ⟨c, hc, he⟩ := List.mem_map.mp hmem
        exact hnew c hc he
      · intro i p hlive
        rcases hsp.live hlive with ⟨-, hrec⟩ | ⟨-, hlive⟩
        · exact ⟨_, List.mem_cons_self, hrec⟩
        · obtain ⟨c, hc, hrec⟩ := hI.records i p hlive
          exact ⟨c, List.mem_cons_of_mem _ hc, hrec⟩
      · intro i j p q hp hq he
        rcases hsp.live hp with ⟨rfl, hrec⟩ | ⟨-, hp⟩ <;>
          rcases hsp.live hq with ⟨rfl, hrec'⟩ | ⟨-, hq⟩
        · rfl
        · exact absurd (he.symm.trans hrec.pid) (hother hq)
        · exact absurd (he.trans hrec'.pid) (hother hp)
        · exact hI.once i j p q hp hq he

theorem start_inv {fds : List Int} (hfds : ∀ fd ∈ fds, 0 ≤ fd) :
    Inv { table := .start fds, children := [] } where
  bound := Nat.zero_le _
  fds := hfds
  pids := List.nodup_nil
  records _ _ h := absurd h.lt (Nat.not_lt_zero _)
  once _ _ _ _ h := absurd h.lt (Nat.not_lt_zero _)

theorem Reach.inv {fds : List Int} (hfds : ∀ fd ∈ fds, 0 ≤ fd) (h : Reach fds s) : s.Inv := by
  induction h with
  | start => exact start_inv hfds
  | step _ he hstep ih =>
    obtain ⟨s', hs', hI⟩ := ih.step he
    exact Option.some.inj (hs'.symm.trans hstep) ▸ hI

/-- What the process table promises. -/
structure Sound (s : Supervisor) : Prop where
  /-- `cw_last_process` stays within the array -/
  bound : s.table.last ≤ maxProcesses
  /-- the next event, whatever it is, accesses no element outside the array -/
  inside : ∀ e, s.Admits e → ∃ s', s.step e = some s'
  /-- a slot in use records exactly one of the children, whose pids are distinct -/
  records : ∀ i p, s.table.Live i p → ∃ c ∈ s.children, p.Records c ∧
    ∀ d ∈ s.children, p.Records d → d = c
  pids : (s.children.map Child.pid).Nodup
  /-- no child is in two slots -/
  once : ∀ i j p q c, s.table.Live i p → s.table.Live j q → p.Records c → q.Records c → i = j
  /-- a call leaves the slots in use as they are -/
  kept : ∀ call ans, s.Admits (.spawn call ans) →
    ∀ r t, spawnProcess call ans s.table = some (r, t) →
    ∀ i p, s.table.Live i p → t.Live i p
  /-- a call that forks a child records it, in a slot that was not in use -/
  recorded : ∀ call ans, s.Admits (.spawn call ans) → ∀ pid t,
    spawnProcess call ans s.table = some (.ok pid, t) →
      ∃ i p, t.Live i p ∧ p.Records (call.child ans pid) ∧ ∀ q, ¬ s.table.Live i q
  /-- a call that fails leaves `cw_last_process` and the open descriptors as they are, and adds
  no slot in use -/
  failed : ∀ call ans, s.Admits (.spawn call ans) → ∀ r t,
    spawnProcess call ans s.table = some (r, t) → spawnPid r = invalidPid →
      t.last = s.table.last ∧ t.fds = s.table.fds ∧ ∀ i p, t.Live i p → s.table.Live i p

/-- **The process table is sound in every state a supervisor can reach**, whatever the system
answers: the accesses stay inside the array, and the slots in use and the children that were forked
belong together. -/
theorem reach_sound {fds : List Int} (hfds : ∀ fd ∈ fds, 0 ≤ fd) (h : Reach fds s) :
    s.Sound := by
  have hI := h.inv hfds
  refine ⟨hI.bound, ?_, ?_, hI.pids, ?_, ?_, ?_, ?_⟩
  · intro e he
    obtain ⟨s', hs', -⟩ := hI.step he
    exact ⟨s', hs'⟩
  · intro i p hlive
    obtain ⟨c, hc, hrec⟩ := hI.records i p hlive
    refine ⟨c, hc, hrec, fun d hd hrec' => ?_⟩
    exact List.inj_on_of_nodup_map hI.pids hd hc (Int.ofNat.inj (hrec'.pid.symm.trans hrec.pid))
  · exact fun i j p q c hp hq hrec hrec' => hI.once i j p q hp hq (hrec.pid.trans hrec'.pid.symm)
  · rintro call ans ⟨hneg, -⟩ r t hrun i p hlive
    obtain ⟨k, r', t', -, hfree, hrun', hr⟩ :=
      spawnProcess_spec ans hneg hI.bound hI.fds
    obtain ⟨rfl, rfl⟩ := Prod.mk.inj (Option.some.inj (hrun.symm.trans hrun'))
    have hi : i ≠ k := fun he => hfree p (he ▸ hlive)
    rcases hr with ⟨-, -, hun⟩ | ⟨pid, -, -, hsp⟩
    · exact ⟨by rw [hun.last]; exact hlive.lt, (hun.frame i hi).trans hlive.read_eq, hlive.used⟩
    · refine ⟨?_, (hsp.frame i hi).trans hlive.read_eq, hlive.used⟩
      have hlast := hsp.last
      have := hlive.lt
      split at hlast <;> omega
  · rintro call ans ⟨hneg, -⟩ pid t hrun
    obtain ⟨k, r', t', hk, hfree, hrun', hr⟩ :=
      spawnProcess_spec ans hneg hI.bound hI.fds
    obtain ⟨rfl, rfl⟩ := Prod.mk.inj (Option.some.inj (hrun.symm.trans hrun'))
    rcases hr with ⟨e, he, -⟩ | ⟨pid', hpid, -, hsp⟩
    · cases he
    · obtain rfl := Except.ok.inj hpid
      obtain ⟨p, hp, hrec⟩ := hsp.slot
      exact ⟨k, p, hsp.live_new hk hp hrec, hrec, hfree⟩
  · rintro call ans ⟨hneg, -⟩ r t hrun hpid
    obtain ⟨k, r', t', -, hfree, hrun', hr⟩ :=
      spawnProcess_spec ans hneg hI.bound hI.fds
    obtain ⟨rfl, rfl⟩ := Prod.mk.inj (Option.some.inj (hrun.symm.trans hrun'))
    rcases hr with ⟨-, -, hun⟩ | ⟨pid, rfl, -, -⟩
    · exact ⟨hun.last, hun.fds, fun i p h => hun.live hfree h⟩
    · -- a pid is not -1
      simp only [spawnPid, invalidPid] at hpid
      omega

/-- A worker is started, and everything succeeds. -/
def sampleSpawn : ProcessEvent :=
  .spawn { proc := 1, data := 0, name := "worker process", respawn := processRespawn }
    { socketpair := some (3, 4), nonblocking₀ := true, nonblocking₁ := true, fioasync := true,
      setown := true, cloexec₀ := true, cloexec₁ := true, fork := some 100 }

/-- The statement after a worker has been started and its slot marked. -/
theorem reach_sound_sample :
    ∃ s s', step { table := .start [0, 1, 2], children := [] } sampleSpawn = some s ∧
      s.step (.markFree 0) = some s' ∧ s.Sound ∧ s'.Sound := by
  have hstart : Reach [0, 1, 2] { table := .start [0, 1, 2], children := [] } := .start
  have hfirst : Admits { table := .start [0, 1, 2], children := [] } sampleSpawn := by
    refine ⟨by decide, ?_, ?_⟩
    · rintro a b ⟨⟩
      decide
    · rintro pid ⟨⟩
      exact ⟨by decide, by simp⟩
  have hreach := hstart.step hfirst rfl
  exact ⟨_, _, rfl, rfl, reach_sound (by decide) hreach,
    reach_sound (by decide) (hreach.step (e := .markFree 0) Nat.zero_lt_one rfl)⟩

end Supervisor

end Capwap
