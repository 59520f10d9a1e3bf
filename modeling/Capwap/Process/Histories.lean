/-
# What the processes do in any order of their steps

`histories_sound` puts together what holds of the master, its workers and its table at any time.
The other results follow one process through a history: its flags tell which signals came to it, or
to the master before it was forked (`histories_flags`); each time `sigsuspend` returns, the master
logs what has come, once, and waits again (`histories_rounds`); a worker for which there is no
`process_events` ends after a number of steps that is fixed from the start, and the master never
learns of it (`worker_gone`).

What the master does by itself is what `masterProcessCycle` does, however the workers and the
signals come between (`histories_master`).
-/
import Capwap.Process.System

namespace Capwap

open Family

variable {R : Runtime} {pid : Nat} {flags : SignalFlags} {fds : List Int}
  {ms : List (Family.Move (Input SpawnAnswers) (Input Int))} {f : Family Master Worker}

/-! ## 1. All of them -/

/-- What holds at any time, when `D` is what signals do before `cw_init_signals`. -/
structure ProcessesSound (R : Runtime) (D : Nat → Disposition) (f : Family Master Worker) :
    Prop where
  /-- nothing ends the master but a signal, and neither of the two that are handled -/
  master : ∀ how, f.parent.point = .ended how → ∃ signo, how = .signal signo ∧ signo ≠ sigquit ∧
    signo ≠ sigterm ∧ D signo = .terminate
  /-- a worker may also end itself -/
  worker : ∀ w ∈ f.children, ∀ how, w.point = .ended how → (∃ signo, how = .signal signo ∧
    signo ≠ sigquit ∧ signo ≠ sigterm ∧ D signo = .terminate) ∨
      (how = .exit 2 ∧ true ∈ R.hooks) ∨ (how = .fault ∧ R.polls = false)
  /-- the master can go on unless it waits in `sigsuspend` -/
  inside : ∀ ans, f.parent.point ≠ .suspended → (∀ how, f.parent.point ≠ .ended how) →
    ∃ r, f.parent.step R (.go ans) = some r
  /-- there are two workers at most -/
  count : f.children.length ≤ 2
  /-- no two of them are the same process, or have the same argument -/
  apart : ∀ (j k : Nat) (v w : Worker), j < k → f.children[j]? = some v → f.children[k]? = some w →
    v.pid ≠ w.pid ∧ v.data < w.data
  /-- each is in a slot of the master's table, whatever has become of it -/
  last : f.parent.table.last = f.children.length
  record : ∀ k w, f.children[k]? = some w → w.data < 2 ∧
    ∃ p, f.parent.table.Live k p ∧ p.Records (w.asChild p.channel)
  /-- each sees the slots before its own as the master does -/
  seen : ∀ k w, f.children[k]? = some w → f.parent.table.SeenFrom k w.table

/-- A signal that ends a process is not one of the table. -/
theorem terminate_of_installed {answers : Nat → Bool} {D : Nat → Disposition} {signo : Nat}
    (hsig : initSignals answers D = (.ok (), R.disposition))
    (h : R.disposition signo = .terminate) :
    signo ≠ sigquit ∧ signo ≠ sigterm ∧ D signo = .terminate := by
  obtain ⟨-, hD⟩ := (initSignals_ok_iff answers D R.disposition).mp hsig
  rw [hD signo] at h
  split at h
  · cases h
  · rename_i hne
    rw [not_or] at hne
    exact ⟨hne.1, hne.2, h⟩

/-- A master that satisfies the invariant has a next step, unless it waits for a signal. -/
theorem Master.Inv.inside {m : Master} {n : Nat} (h : m.Inv R n) (ans : SpawnAnswers)
    (hsuspended : m.point ≠ .suspended) (hrunning : ∀ how, m.point ≠ .ended how) :
    ∃ r, m.step R (.go ans) = some r := by
  unfold Master.step
  cases hpoint : m.point with
  | suspended => exact absurd hpoint hsuspended
  | ended how => exact absurd hpoint (hrunning how)
  | waiting | woken => exact ⟨_, rfl⟩
  | starting i =>
    simp only
    split
    · rename_i hi
      have hnext := h.next
      simp only [hpoint, MasterPoint.next] at hnext
      obtain ⟨r, t, hrun, -⟩ := spawnWorker_spec i ans h.last
        (show n < maxProcesses by unfold maxProcesses; omega) h.used h.fds
      simp only [Master.startWorker, hrun, Option.bind_eq_bind, Option.bind_some]
      exact ⟨_, rfl⟩
    · exact ⟨_, rfl⟩

/-- **The processes at any time**, in any order of the steps, of the signals and of the answers of
the system. -/
theorem histories_sound {answers : Nat → Bool} {D : Nat → Disposition}
    (hsig : initSignals answers D = (.ok (), R.disposition)) (hfds : ∀ fd ∈ fds, 0 ≤ fd)
    (h : R.Histories pid flags fds ms f) : ProcessesSound R D f := by
  obtain ⟨hinv, htied⟩ := histories_linked hfds h
  refine ⟨?_, ?_, fun ans => hinv.inside ans, hinv.next.1.trans hinv.next.2, ?_, hinv.last, ?_,
    fun k w hw => (htied k w hw).seen⟩
  · intro how hhow
    obtain ⟨signo, rfl, hD⟩ := hinv.ended how hhow
    exact ⟨signo, rfl, terminate_of_installed hsig hD⟩
  · intro w hw how hhow
    obtain ⟨k, hk⟩ := List.mem_iff_getElem?.mp hw
    cases (htied k w hk).ended how hhow with
    | signal hD => exact Or.inl ⟨_, rfl, terminate_of_installed hsig hD⟩
    | hook hhooks => exact Or.inr (Or.inl ⟨rfl, hhooks⟩)
    | events hpolls => exact Or.inr (Or.inr ⟨rfl, hpolls⟩)
  · intro j k v w hjk hv hw
    obtain ⟨p, hp, hrec⟩ := (htied j v hv).record
    obtain ⟨q, hq, hrec'⟩ := (htied k w hw).record
    have hdata := hinv.order j k p q hjk hp hq
    rw [hrec.data, hrec'.data] at hdata
    refine ⟨fun heq => ?_, hdata⟩
    have hpid : p.pid = q.pid := by
      rw [hrec.pid, hrec'.pid]
      exact congrArg Int.ofNat heq
    exact absurd (hinv.pids j k p q hp hq hpid) (Nat.ne_of_lt hjk)
  · intro k w hw
    obtain ⟨p, hp, hrec⟩ := (htied k w hw).record
    refine ⟨?_, p, hp, hrec⟩
    have hdata := hinv.data k p hp
    rw [hrec.data] at hdata
    exact Nat.lt_of_lt_of_le hdata hinv.next.2

/-! ## 2. The flags

The inputs of one process are a part of the moves of all, in their order.  For the master these are
its own; a worker begins as a copy of the master, so what it has heard is what the master had up to
the fork, and then its own. -/

/-- The signals among the inputs of a process. -/
def heard {α : Type} : List (Input α) → List Nat
  | [] => []
  | .signal signo _ :: xs => signo :: heard xs
  | .go _ :: xs => heard xs

theorem heard_append {α : Type} (xs ys : List (Input α)) :
    heard (xs ++ ys) = heard xs ++ heard ys := by
  induction xs with
  | nil => rfl
  | cons x xs ih =>
    cases x with
    | signal signo sender => exact congrArg (signo :: ·) ih
    | go a => exact ih

/-- The two signals of the table are handled. -/
def Runtime.Handles (R : Runtime) : Prop :=
  R.disposition sigquit = .handler ∧ R.disposition sigterm = .handler

theorem Runtime.handles_of_installed {answers : Nat → Bool} {D : Nat → Disposition}
    (hsig : initSignals answers D = (.ok (), R.disposition)) : R.Handles := by
  obtain ⟨-, hD⟩ := (initSignals_ok_iff answers D R.disposition).mp hsig
  exact ⟨by rw [hD, if_pos (Or.inl rfl)], by rw [hD, if_pos (Or.inr rfl)]⟩

/-- A signal without a flag says nothing. -/
theorem SignalFlags.Tells.other {hs : List Nat} {fl : SignalFlags} (h : fl.Tells hs) {signo : Nat}
    (hquit : signo ≠ sigquit) (hterm : signo ≠ sigterm) : fl.Tells (hs ++ [signo]) := by
  have hsame := h.handled signo Option.none
  unfold signalHandler at hsame
  rwa [if_neg hquit, if_neg hterm] at hsame

/-- The flags after a signal. -/
def Runtime.flagsAfter (R : Runtime) (signo : Nat) (sender : Option Nat) (fl : SignalFlags) :
    SignalFlags :=
  match R.disposition signo with
  | .handler => (signalHandler signo sender fl).1
  | _ => fl

theorem Worker.receive_flags (w : Worker) (signo : Nat) (sender : Option Nat) :
    (w.receive R signo sender).flags = R.flagsAfter signo sender w.flags := by
  unfold Worker.receive Runtime.flagsAfter
  split <;> simp_all

theorem Master.receive_flags (m : Master) (signo : Nat) (sender : Option Nat) :
    (m.receive R signo sender).flags = R.flagsAfter signo sender m.flags := by
  unfold Master.receive Runtime.flagsAfter
  split <;> simp_all

theorem Runtime.Handles.tells (hR : R.Handles) {fl : SignalFlags} {hs : List Nat}
    (h : fl.Tells hs) (signo : Nat) (sender : Option Nat) :
    (R.flagsAfter signo sender fl).Tells (hs ++ [signo]) := by
  unfold Runtime.flagsAfter
  split
  · exact h.handled signo sender
  · rename_i hD
    exact h.other (fun heq => hD (heq ▸ hR.1)) (fun heq => hD (heq ▸ hR.2))

/-- A step that is not a signal leaves a worker's flags. -/
theorem Worker.step_flags {w w' : Worker} {rc : Int} (h : w.step R (.go rc) = some w') :
    w'.flags = w.flags := by
  unfold Worker.step at h
  cases hpoint : w.point with
  | ended how => simp [hpoint] at h
  | initializing k =>
    simp only [hpoint] at h
    split at h
    · exact Option.some.inj h ▸ rfl
    · exact Option.some.inj h ▸ rfl
    · split at h
      · exact Option.some.inj h ▸ rfl
      · exact Option.some.inj h ▸ rfl
  | cycling =>
    simp only [hpoint, Option.some.injEq] at h
    exact h ▸ rfl
  | cycled =>
    simp only [hpoint] at h
    split at h
    · exact Option.some.inj h ▸ rfl
    · exact Option.some.inj h ▸ rfl

theorem Worker.step_tells (hR : R.Handles) {w w' : Worker} {hs : List Nat} {y : Input Int}
    (h : w.flags.Tells hs) (hstep : w.step R y = some w') : w'.flags.Tells (hs ++ heard [y]) := by
  cases y with
  | signal signo sender =>
    obtain ⟨-, rfl⟩ := Worker.step_signal hstep
    rw [Worker.receive_flags]
    exact hR.tells h signo sender
  | go rc =>
    rw [Worker.step_flags hstep, heard, heard, List.append_nil]
    exact h

/-- Nor does the master's. -/
theorem Master.step_flags {m m' : Master} {ans : SpawnAnswers} {made : Option Worker}
    (h : m.step R (.go ans) = some (m', made)) : m'.flags = m.flags := by
  unfold Master.step at h
  cases hpoint : m.point with
  | ended how => simp [hpoint] at h
  | suspended => simp [hpoint] at h
  | waiting =>
    simp only [hpoint, Option.some.injEq, Prod.mk.injEq] at h
    exact h.1 ▸ rfl
  | woken =>
    simp only [hpoint, Option.some.injEq, Prod.mk.injEq] at h
    rw [← h.1]
    unfold Master.round
    split_ifs <;> rfl
  | starting i =>
    simp only [hpoint] at h
    split at h
    · unfold Master.startWorker at h
      obtain ⟨⟨r, t⟩, -, h⟩ := Option.bind_eq_some_iff.mp h
      exact (Prod.mk.inj (Option.some.inj h)).1 ▸ rfl
    · exact (Prod.mk.inj (Option.some.inj h)).1 ▸ rfl

/-- A new worker is at its start, with the flags of the master.  These are the flags before the
step, which are the same after it. -/
theorem Master.step_makes {m m' : Master} {x : Input SpawnAnswers} {w : Worker}
    (h : m.step R x = some (m', some w)) :
    ∃ ans pid i tf, x = .go ans ∧ w = Worker.start pid i m.flags tf := by
  rcases Master.step_cases h with ⟨hnone, -⟩ | ⟨i, ans, rfl, -, -, hstart⟩
  · cases hnone
  · unfold Master.startWorker at hstart
    obtain ⟨⟨r, t⟩, -, hstart⟩ := Option.bind_eq_some_iff.mp hstart
    obtain ⟨-, hmade⟩ := Prod.mk.inj (Option.some.inj hstart)
    cases r with
    | error e => cases hmade
    | ok pid =>
      obtain ⟨tf, -, rfl⟩ := Option.map_eq_some_iff.mp hmade
      exact ⟨ans, pid, i, tf, rfl, rfl⟩

theorem Master.step_tells (hR : R.Handles) {m m' : Master} {hs : List Nat} {made : Option Worker}
    {x : Input SpawnAnswers} (h : m.flags.Tells hs) (hstep : m.step R x = some (m', made)) :
    m'.flags.Tells (hs ++ heard [x]) := by
  cases x with
  | signal signo sender =>
    obtain ⟨-, rfl, -⟩ := Master.step_signal hstep
    rw [Master.receive_flags]
    exact hR.tells h signo sender
  | go ans =>
    rw [Master.step_flags hstep, heard, heard, List.append_nil]
    exact h

/-- **The flags of each process**, in any order of the steps: the master's tell which signals came
to it, and a worker's which came to it, or to the master before the worker was forked. -/
theorem histories_flags {answers : Nat → Bool} {D : Nat → Disposition} {before : List Nat}
    (hsig : initSignals answers D = (.ok (), R.disposition)) (hflags : flags.Tells before)
    (h : R.Histories pid flags fds ms f) :
    f.parent.flags.Tells (before ++ heard (parentMoves ms)) ∧
      ∀ k w, f.children[k]? = some w → ∃ ms₁ ans ms₂ f₁ f₂, ms = ms₁ ++ .parent (.go ans) :: ms₂ ∧
        R.Histories pid flags fds ms₁ f₁ ∧ R.laws.step f₁ (.parent (.go ans)) = some f₂ ∧
        f₁.children.length = k ∧ f₂.children.length = k + 1 ∧
        w.flags.Tells (before ++ heard (parentMoves ms₁) ++ heard (childMoves k ms)) := by
  have hR := R.handles_of_installed hsig
  have hmaster : ∀ {ms f}, R.Histories pid flags fds ms f →
      f.parent.flags.Tells (before ++ heard (parentMoves ms)) := by
    intro ms f hrun
    refine hrun.parent_history (I := fun xs m => m.flags.Tells (before ++ heard xs)) ?_ ?_
    · rw [heard, List.append_nil]
      exact hflags
    · intro xs m x m' made hm hstep
      rw [heard_append, ← List.append_assoc]
      exact Master.step_tells hR hm hstep
  refine ⟨hmaster h, fun k w hw => ?_⟩
  obtain ⟨ms₁, x, ms₂, f₁, m', w₀, rfl, hrun, hk, -, hmade, hmoves, hown⟩ := h.child hw
  obtain ⟨ans, pid₀, i, tf, rfl, hw₀⟩ := Master.step_makes hmade
  refine ⟨ms₁, ans, ms₂, f₁, ⟨m', f₁.children ++ [w₀]⟩, rfl, hrun, ?_, hk, ?_, ?_⟩
  · show (R.laws.parent f₁.parent (.go ans)).map _ = _
    rw [hmade]
    rfl
  · show (f₁.children ++ [w₀]).length = k + 1
    rw [List.length_append, hk]
    rfl
  · rw [hmoves]
    refine Laws.childRun_from
      (I := fun ys w => w.flags.Tells (before ++ heard (parentMoves ms₁) ++ heard ys)) ?_ ?_ hown
    · rw [heard, List.append_nil, hw₀]
      exact hmaster hrun
    · intro ys c y c' hc hstep
      rw [heard_append, ← List.append_assoc]
      exact Worker.step_tells hR hc hstep

/-! ## 3. Workers without events

The loop of a worker is: log a line, call for events, look at a flag.  If `process_events` is null
the call is the end, so the number of steps is that of the modules and two more. -/

/-- The number of steps that are not signals. -/
def goes {α : Type} : List (Input α) → Nat
  | [] => 0
  | .signal _ _ :: xs => goes xs
  | .go _ :: xs => goes xs + 1

theorem goes_append {α : Type} (xs ys : List (Input α)) : goes (xs ++ ys) = goes xs + goes ys := by
  induction xs with
  | nil => exact (Nat.zero_add _).symm
  | cons x xs ih =>
    cases x with
    | signal signo sender => exact ih
    | go a =>
      simp only [List.cons_append, goes, ih]
      omega

/-- The steps a worker can still take when there is no `process_events`. -/
def Runtime.left (R : Runtime) : WorkerPoint → Nat
  | .initializing k => R.hooks.length + 2 - k
  | .cycling => 1
  | .cycled => 2
  | .ended _ => 0

/-- A worker that has taken `n` steps: its loop is inside the modules, and not many steps are
left. -/
structure Worker.Spent (R : Runtime) (n : Nat) (w : Worker) : Prop where
  inside : ∀ k, w.point = .initializing k → k ≤ R.hooks.length
  left : n + R.left w.point ≤ R.hooks.length + 2

theorem Worker.Spent.start (data : Nat) (t : ProcessTable) :
    (Worker.start pid data flags t).Spent R 0 := by
  constructor
  · rintro k ⟨⟩
    exact Nat.zero_le _
  · show 0 + (R.hooks.length + 2 - 0) ≤ R.hooks.length + 2
    omega

/-- A step uses one up, and a signal none. -/
theorem Worker.Spent.step (hpolls : R.polls = false) {w w' : Worker} {n : Nat} {y : Input Int}
    (h : w.Spent R n) (hstep : w.step R y = some w') : w'.Spent R (n + goes [y]) := by
  obtain ⟨hinside, hleft⟩ := h
  cases y with
  | signal signo sender =>
    obtain ⟨hrunning, rfl⟩ := Worker.step_signal hstep
    unfold Worker.receive
    cases R.disposition signo with
    | terminate => exact ⟨by simp, show n + 0 + 0 ≤ _ by omega⟩
    | ignore => exact ⟨hinside, hleft⟩
    | handler => exact ⟨hinside, hleft⟩
  | go rc =>
    have hone : goes [Input.go rc] = 1 := rfl
    rw [hone]
    unfold Worker.step at hstep
    cases hpoint : w.point with
    | ended how => simp [hpoint] at hstep
    | initializing k =>
      have hk := hinside k hpoint
      simp only [hpoint, Runtime.left] at hstep hleft
      cases hhook : R.hooks[k]? with
      | none =>
        simp only [hhook, Option.some.injEq] at hstep
        subst hstep
        exact ⟨by simp, show n + 1 + 1 ≤ _ by omega⟩
      | some hook =>
        have hlt : k < R.hooks.length := (List.getElem?_eq_some_iff.mp hhook).1
        have hnext : ({ w with point := .initializing (k + 1) } : Worker).Spent R (n + 1) := by
          constructor
          · rintro j ⟨⟩
            exact hlt
          · show n + 1 + (R.hooks.length + 2 - (k + 1)) ≤ _
            omega
        cases hook with
        | false =>
          simp only [hhook, Option.some.injEq] at hstep
          exact hstep ▸ hnext
        | true =>
          simp only [hhook] at hstep
          split at hstep
          · obtain rfl := Option.some.inj hstep
            exact ⟨by simp, show n + 1 + 0 ≤ _ by omega⟩
          · exact Option.some.inj hstep ▸ hnext
    | cycling =>
      simp only [hpoint, hpolls, Runtime.left, Option.some.injEq] at hstep hleft
      subst hstep
      exact ⟨by simp, show n + 1 + 0 ≤ _ by omega⟩
    | cycled =>
      simp only [hpoint, Runtime.left] at hstep hleft
      split at hstep
      · obtain rfl := Option.some.inj hstep
        exact ⟨by simp, show n + 1 + 1 ≤ _ by omega⟩
      · obtain rfl := Option.some.inj hstep
        exact ⟨by simp, show n + 1 + 1 ≤ _ by omega⟩

/-- A worker that has not ended has a next step. -/
theorem Worker.step_running {w : Worker} (h : ∀ how, w.point ≠ .ended how) (rc : Int) :
    ∃ w', w.step R (.go rc) = some w' := by
  unfold Worker.step
  cases hpoint : w.point with
  | ended how => exact absurd hpoint (h how)
  | initializing k =>
    simp only
    split
    · exact ⟨_, rfl⟩
    · exact ⟨_, rfl⟩
    · split <;> exact ⟨_, rfl⟩
  | cycling => exact ⟨_, rfl⟩
  | cycled =>
    simp only
    split <;> exact ⟨_, rfl⟩

/-- **Where nothing sets `process_events`, a worker ends** with its step `hooks.length + 2` at the
latest, and until then it can go on.  In the master's table it stays as it was forked. -/
theorem worker_gone (hpolls : R.polls = false) (hfds : ∀ fd ∈ fds, 0 ≤ fd)
    (h : R.Histories pid flags fds ms f) {k : Nat} {w : Worker} (hw : f.children[k]? = some w) :
    goes (childMoves k ms) ≤ R.hooks.length + 2 ∧
      (goes (childMoves k ms) = R.hooks.length + 2 → ∃ how, w.point = .ended how) ∧
      ((∀ how, w.point ≠ .ended how) → ∀ rc, ∃ w', w.step R (.go rc) = some w') ∧
      ∃ p, f.parent.table.Live k p ∧ p.Records (w.asChild p.channel) := by
  obtain ⟨ms₁, x, ms₂, f₁, m', w₀, -, -, -, -, hmade, hmoves, hown⟩ := h.child hw
  obtain ⟨ans, pid₀, i, tf, -, rfl⟩ := Master.step_makes hmade
  have hspent : w.Spent R (goes (childMoves k ms)) := by
    rw [hmoves]
    refine Laws.childRun_from (I := fun ys w => w.Spent R (goes ys)) (.start i tf) ?_ hown
    intro ys c y c' hc hstep
    rw [goes_append]
    exact hc.step hpolls hstep
  have hleft := hspent.left
  refine ⟨by omega, fun hgoes => ?_, fun hrunning rc => Worker.step_running hrunning rc,
    ((histories_linked hfds h).children k w hw).record⟩
  have hzero : R.left w.point = 0 := by omega
  cases hpoint : w.point with
  | ended how => exact ⟨how, rfl⟩
  | initializing j =>
    have hj := hspent.inside j hpoint
    simp only [hpoint, Runtime.left] at hzero
    omega
  | cycling | cycled => simp [hpoint, Runtime.left] at hzero

/-! ## 4. The rounds of the master

The local variable `live` is set to 1 and never again, so the test for the end of the master is
always false.  What is left of a round is a line in the log, if a flag is set.  The log has the
lines of the handler as well, so it tells what had come before each line. -/

/-- The signals in a log. -/
def heardIn : List LogLine → List Nat
  | [] => []
  | .signal signo _ _ _ :: lines => signo :: heardIn lines
  | _ :: lines => heardIn lines

theorem heardIn_append (log log' : List LogLine) :
    heardIn (log ++ log') = heardIn log ++ heardIn log' := by
  induction log with
  | nil => rfl
  | cons line log ih =>
    cases line with
    | signal signo signame sender action => exact congrArg (signo :: ·) ih
    | _ => exact ih

/-- When a line is due, after the signals `hs`: that about SIGTERM once there has been one, that
about SIGQUIT when there has been one and no SIGTERM, and the last line of the master never. -/
def LogLine.Due (hs : List Nat) : LogLine → Prop
  | .terminate => sigterm ∈ hs
  | .quit => sigterm ∉ hs ∧ sigquit ∈ hs
  | .masterExit => False
  | _ => True

/-- Every line of a log is due, when the signals `before` came before it. -/
def Explained (before : List Nat) (log : List LogLine) : Prop :=
  ∀ l₁ line l₂, log = l₁ ++ line :: l₂ → line.Due (before ++ heardIn l₁)

theorem Explained.snoc {before : List Nat} {log : List LogLine} {line : LogLine}
    (h : Explained before log) (hline : line.Due (before ++ heardIn log)) :
    Explained before (log ++ [line]) := by
  intro l₁ line' l₂ heq
  rcases List.eq_nil_or_concat l₂ with rfl | ⟨l₂', last, rfl⟩
  · obtain ⟨rfl, hlast⟩ := List.append_inj' heq rfl
    exact List.head_eq_of_cons_eq hlast ▸ hline
  · rw [List.concat_eq_append, ← List.cons_append, ← List.append_assoc] at heq
    obtain ⟨rfl, -⟩ := List.append_inj' heq rfl
    exact h l₁ line' l₂' rfl

/-- Whether a call of `sigsuspend` has not been answered yet. -/
def MasterPoint.open : MasterPoint → Nat
  | .suspended | .woken => 1
  | _ => 0

/-- What the log of the master says: which signals have come, how often `sigsuspend` was called and
has returned, and that every line was due. -/
structure Master.Logged (before : List Nat) (m : Master) : Prop where
  live : m.live = 1
  flags : m.flags.Tells (before ++ heardIn m.log)
  explained : Explained before m.log
  woken : m.point = .woken → sigterm ∈ before ++ heardIn m.log ∨ sigquit ∈ before ++ heardIn m.log
  count : (∀ how, m.point ≠ .ended how) → m.log.count .sigsuspend
    = m.log.count .terminate + m.log.count .quit + m.point.open

section
variable {before : List Nat}

/-- The line of the handler. -/
theorem signalHandler_line (signo : Nat) (sender : Option Nat) (fl : SignalFlags) :
    ∃ signame action, (signalHandler signo sender fl).2 = .signal signo signame sender action := by
  unfold signalHandler
  split_ifs <;> exact ⟨_, _, rfl⟩

/-- A signal that is handled. -/
theorem Master.Logged.receive {answers : Nat → Bool} {D : Nat → Disposition} {m : Master}
    {signo : Nat} {sender : Option Nat} (h : m.Logged before)
    (hsig : initSignals answers D = (.ok (), R.disposition)) (hD : ∀ signo, D signo ≠ .handler)
    (hrunning : ∀ how, m.point ≠ .ended how) : (m.receive R signo sender).Logged before := by
  obtain ⟨hlive, hflags, hexplained, hwoken, hcount⟩ := h
  unfold Master.receive
  cases hdisp : R.disposition signo with
  | terminate => exact ⟨hlive, hflags, hexplained, by simp, fun h => absurd rfl (h _)⟩
  | ignore => exact ⟨hlive, hflags, hexplained, hwoken, hcount⟩
  | handler =>
    obtain ⟨signame, action, hline⟩ := signalHandler_line signo sender m.flags
    have hsigno : signo = sigquit ∨ signo = sigterm := by
      obtain ⟨-, hall⟩ := (initSignals_ok_iff answers D R.disposition).mp hsig
      rw [hall signo] at hdisp
      by_contra hne
      rw [if_neg hne] at hdisp
      exact hD signo hdisp
    have hheard : before ++ heardIn (m.log ++ [.signal signo signame sender action])
        = before ++ heardIn m.log ++ [signo] := by
      rw [heardIn_append, ← List.append_assoc]
      rfl
    simp only [hline]
    refine ⟨hlive, ?_, hexplained.snoc trivial, ?_, ?_⟩
    · rw [hheard]
      exact hflags.handled signo sender
    · rw [hheard]
      rintro -
      rcases hsigno with rfl | rfl
      · exact Or.inr (List.mem_append_right _ (List.mem_singleton.mpr rfl))
      · exact Or.inl (List.mem_append_right _ (List.mem_singleton.mpr rfl))
    · rintro -
      have hopen : (if m.point = .suspended then MasterPoint.woken else m.point).open
          = m.point.open := by
        split
        · rename_i hp
          rw [hp]
          rfl
        · rfl
      rw [hopen]
      simpa [List.count_append, List.count_singleton] using hcount hrunning

/-- A round after `sigsuspend` logs one line. -/
theorem Master.Logged.round {m : Master} (h : m.Logged before) (hpoint : m.point = .woken) :
    m.round.Logged before := by
  obtain ⟨hlive, hflags, hexplained, hwoken, hcount⟩ := h
  have hopen := hcount (by simp [hpoint])
  simp only [hpoint, MasterPoint.open] at hopen
  unfold Master.round
  rw [if_neg (by simp [hlive])]
  by_cases hterm : sigterm ∈ before ++ heardIn m.log
  · have hflag : m.flags.terminate ≠ 0 := by
      rw [hflags.terminate, if_pos hterm]
      decide
    rw [if_pos hflag]
    refine ⟨hlive, ?_, hexplained.snoc hterm, by simp, fun _ => ?_⟩
    · simpa [heardIn_append, heardIn] using hflags
    · simp only [List.count_append, List.count_singleton, MasterPoint.open]
      simp
      omega
  · have hflag : ¬ m.flags.terminate ≠ 0 := by
      rw [hflags.terminate, if_neg hterm]
      decide
    have hquit : sigquit ∈ before ++ heardIn m.log := (hwoken hpoint).resolve_left hterm
    have hflag' : m.flags.quit ≠ 0 := by
      rw [hflags.quit, if_pos hquit]
      decide
    rw [if_neg hflag, if_pos hflag']
    refine ⟨hlive, ?_, hexplained.snoc ⟨hterm, hquit⟩, by simp, fun _ => ?_⟩
    · simpa [heardIn_append, heardIn] using hflags
    · simp only [List.count_append, List.count_singleton, MasterPoint.open]
      simp
      omega

/-- A line that is always due, and counts for nothing. -/
theorem Master.Logged.line {m m' : Master} {line : LogLine} (h : m.Logged before)
    (hlog : m'.log = m.log ++ [line]) (hline : heardIn [line] = [])
    (hdue : line.Due (before ++ heardIn m.log)) (hlive : m'.live = m.live)
    (hflags : m'.flags = m.flags) (hwoken : m'.point ≠ .woken)
    (hcount : m'.log.count .sigsuspend
      = m'.log.count .terminate + m'.log.count .quit + m'.point.open) : m'.Logged before := by
  refine ⟨hlive.trans h.live, ?_, hlog ▸ h.explained.snoc hdue, fun hp => absurd hp hwoken,
    fun _ => hcount⟩
  rw [hflags, hlog, heardIn_append, hline, List.append_nil]
  exact h.flags

theorem Master.Logged.step {answers : Nat → Bool} {D : Nat → Disposition} {m m' : Master}
    {x : Input SpawnAnswers} {made : Option Worker} (h : m.Logged before)
    (hsig : initSignals answers D = (.ok (), R.disposition)) (hD : ∀ signo, D signo ≠ .handler)
    (hstep : m.step R x = some (m', made)) : m'.Logged before := by
  cases x with
  | signal signo sender =>
    obtain ⟨hrunning, rfl, -⟩ := Master.step_signal hstep
    exact h.receive hsig hD hrunning
  | go ans =>
    unfold Master.step at hstep
    cases hpoint : m.point with
    | ended how => simp [hpoint] at hstep
    | suspended => simp [hpoint] at hstep
    | waiting =>
      simp only [hpoint, Option.some.injEq, Prod.mk.injEq] at hstep
      obtain ⟨rfl, -⟩ := hstep
      have hcount := h.count (by simp [hpoint])
      simp only [hpoint, MasterPoint.open] at hcount
      exact h.line rfl rfl trivial rfl rfl (by simp)
        (by simpa [List.count_append, List.count_singleton, MasterPoint.open] using hcount)
    | woken =>
      simp only [hpoint, Option.some.injEq, Prod.mk.injEq] at hstep
      exact hstep.1 ▸ h.round hpoint
    | starting i =>
      have hcount := h.count (by simp [hpoint])
      simp only [hpoint] at hstep hcount
      split at hstep
      · unfold Master.startWorker at hstep
        obtain ⟨⟨r, t⟩, -, hstep⟩ := Option.bind_eq_some_iff.mp hstep
        obtain ⟨rfl, -⟩ := Prod.mk.inj (Option.some.inj hstep)
        cases r with
        | ok pid =>
          exact h.line rfl rfl trivial rfl rfl (by simp)
            (by simpa [spawnLine, List.count_append, List.count_singleton, MasterPoint.open]
              using hcount)
        | error e =>
          exact h.line rfl rfl trivial rfl rfl (by simp)
            (by simpa [spawnLine, List.count_append, List.count_singleton, MasterPoint.open]
              using hcount)
      · obtain ⟨rfl, -⟩ := Prod.mk.inj (Option.some.inj hstep)
        exact ⟨h.live, h.flags, h.explained, by simp, fun _ => hcount⟩

end

/-- **The log of the master**, in any order of the steps.  Each return of `sigsuspend` is answered
by one line, for SIGTERM as soon as there has been one and for SIGQUIT otherwise, and the line of
`cw_master_process_exit` never comes. -/
theorem histories_rounds {answers : Nat → Bool} {D : Nat → Disposition} {before : List Nat}
    (hsig : initSignals answers D = (.ok (), R.disposition)) (hD : ∀ signo, D signo ≠ .handler)
    (hflags : flags.Tells before) (h : R.Histories pid flags fds ms f) :
    Explained before f.parent.log ∧
      ((∀ how, f.parent.point ≠ .ended how) → f.parent.log.count .sigsuspend
        = f.parent.log.count .terminate + f.parent.log.count .quit + f.parent.point.open) := by
  have hlogged : f.parent.Logged before := by
    refine h.parent_history (I := fun _ m => m.Logged before) ?_ ?_
    · refine ⟨rfl, ?_, ?_, by simp [Master.start], fun _ => rfl⟩
      · simpa [Master.start, heardIn] using hflags
      · intro l₁ line l₂ heq
        cases l₁ with
        | nil =>
          obtain ⟨rfl, -⟩ := List.cons.inj heq
          trivial
        | cons line' l₁ => cases l₁ <;> cases heq
    · exact fun xs m x m' made hm hstep => hm.step hsig hD hstep
  exact ⟨hlogged.explained, hlogged.count⟩

/-! ## 5. The master by itself

`masterProcessCycle` is a function: it is given all the answers and all the signals, and yields the
events and the table.  In a history these come one by one, between the steps of others.  The two
are connected by a simulation (`Follows`): at each point of a history there are answers and signals
for which the function has done the same so far. -/

/-- Only the answers that are asked for matter. -/
theorem startWorkers_congr {type : Int} {answers answers' : Nat → SpawnAnswers} :
    ∀ {n i : Nat} {t : ProcessTable}, (∀ j, i ≤ j → answers j = answers' j) →
      startWorkers type answers n i t = startWorkers type answers' n i t := by
  intro n
  induction n with
  | zero =>
    intro i t _
    rfl
  | succ n ih =>
    intro i t h
    simp only [startWorkers, h i (Nat.le_refl i)]
    congr 1
    funext r
    rw [ih fun j hj => h j (by omega)]

/-- The master waits once for each round. -/
theorem masterRounds_live (signals : List (Bool × Bool)) :
    masterRounds 1 signals = List.replicate signals.length .sigsuspend := by
  induction signals with
  | nil => rfl
  | cons x signals ih =>
    obtain ⟨terminate, quit⟩ := x
    simp only [masterRounds, Nat.one_ne_zero, false_and, if_false, ih, List.length_cons,
      List.replicate_succ]

/-- One more round. -/
theorem masterProcessCycle_snoc {answers : Nat → SpawnAnswers} {signals : List (Bool × Bool)}
    {t t' : ProcessTable} {events : List MasterEvent}
    (h : masterProcessCycle answers signals t = some (events, t')) (x : Bool × Bool) :
    masterProcessCycle answers (signals ++ [x]) t = some (events ++ [.sigsuspend], t') := by
  unfold masterProcessCycle at h ⊢
  obtain ⟨⟨events₀, t₀⟩, hstart, h⟩ := Option.bind_eq_some_iff.mp h
  obtain ⟨rfl, rfl⟩ := Prod.mk.inj (Option.some.inj h)
  simp only [hstart, Option.bind_eq_bind, Option.bind_some, masterRounds_live,
    List.length_append, List.length_singleton, List.replicate_add, List.append_assoc]
  rfl

/-- The master is in the loop that starts the workers, before worker `i`: whatever the answers to
come are, the loop goes on from here. -/
def Master.Starts (fds : List Int) (i : Nat) (m : Master) : Prop :=
  i ≤ 2 ∧ ∃ answers : Nat → SpawnAnswers, ∀ answers', (∀ j, j < i → answers' j = answers j) →
    startWorkers processRespawn answers' 2 0 (.start fds)
      = (startWorkers processRespawn answers' (2 - i) i m.table).map
          fun r => (m.events ++ r.1, r.2)

/-- What the master has done so far is what `masterProcessCycle` does first: it is in the loop that
starts the workers, or was when a signal ended it, or the loop is over and the rounds have
begun. -/
inductive Master.Follows (fds : List Int) (m : Master) : Prop
  | starting {i : Nat} : m.Starts fds i → m.point = .starting i → m.Follows fds
  | stopped {i : Nat} {how : Ending} : m.Starts fds i → m.point = .ended how → m.Follows fds
  | started {answers : Nat → SpawnAnswers} {signals : List (Bool × Bool)} :
      masterProcessCycle answers signals (.start fds) = some (m.events, m.table) →
      (∀ i, m.point ≠ .starting i) → m.Follows fds

/-- A signal changes nothing of this. -/
theorem Master.Follows.receive {m : Master} {signo : Nat} {sender : Option Nat}
    (h : m.Follows fds) (hrunning : ∀ how, m.point ≠ .ended how) :
    (m.receive R signo sender).Follows fds := by
  unfold Master.receive
  cases R.disposition signo with
  | ignore => exact h
  | terminate =>
    cases h with
    | starting hstarts _ => exact .stopped hstarts rfl
    | stopped _ hpoint => exact absurd hpoint (hrunning _)
    | started hrun _ => exact .started hrun (by simp)
  | handler =>
    cases h with
    | starting hstarts hpoint => exact .starting hstarts (by simp [hpoint])
    | stopped _ hpoint => exact absurd hpoint (hrunning _)
    | started hrun hpoint =>
      refine .started hrun fun i => ?_
      by_cases hp : m.point = .suspended
      · simp [hp]
      · simpa [hp] using hpoint i

/-- The call for worker `i`. -/
theorem Master.Starts.call {m m' : Master} {made : Option Worker} {i : Nat} {ans : SpawnAnswers}
    (h : m.Starts fds i) (hi : i < 2) (hstart : m.startWorker i ans = some (m', made)) :
    m'.Starts fds (i + 1) ∧ m'.point = .starting (i + 1) := by
  unfold Master.startWorker at hstart
  obtain ⟨⟨r, t⟩, hrun, hstart⟩ := Option.bind_eq_some_iff.mp hstart
  obtain ⟨rfl, -⟩ := Prod.mk.inj (Option.some.inj hstart)
  obtain ⟨hle, answers, hanswers⟩ := h
  refine ⟨⟨hi, Function.update answers i ans, fun answers' hagree => ?_⟩, rfl⟩
  have hans : answers' i = ans := by
    rw [hagree i (Nat.lt_succ_self i), Function.update_self]
  have hbelow : ∀ j, j < i → answers' j = answers j := by
    intro j hj
    rw [hagree j (by omega), Function.update_of_ne (Nat.ne_of_lt hj)]
  obtain ⟨n, hn⟩ : ∃ n, 2 - i = n + 1 := ⟨1 - i, by omega⟩
  have hn' : 2 - (i + 1) = n := by omega
  have hcall : spawnProcess (Master.workerCall i) (answers' i) m.table = some (r, t) :=
    hans ▸ hrun
  unfold Master.workerCall at hcall
  rw [hanswers answers' hbelow, hn, hn']
  simp only [startWorkers, hcall, Option.bind_eq_bind, Option.bind_some]
  cases startWorkers processRespawn answers' n (i + 1) t with
  | none => rfl
  | some r' =>
    simp only [Option.bind_some, Option.map_some, List.append_assoc]
    rfl

/-- The loop is over. -/
theorem Master.Starts.done {m : Master} {i : Nat} (h : m.Starts fds i) (hi : ¬ i < 2) :
    ∃ answers, masterProcessCycle answers [] (.start fds) = some (m.events, m.table) := by
  obtain ⟨hle, answers, hanswers⟩ := h
  obtain rfl : i = 2 := by omega
  have hrun := hanswers answers fun _ _ => rfl
  refine ⟨answers, ?_⟩
  have hloop : startWorkerProcesses 2 processRespawn answers (.start fds)
      = some (m.events, m.table) := by
    unfold startWorkerProcesses
    rw [show (2 : Int).toNat = 2 from rfl, hrun]
    simp [startWorkers]
  simp only [masterProcessCycle, hloop, Option.bind_eq_bind, Option.bind_some, masterRounds,
    List.append_nil]

/-- No step assigns to `live`. -/
theorem Master.step_live {m m' : Master} {x : Input SpawnAnswers} {made : Option Worker}
    (h : m.step R x = some (m', made)) : m'.live = m.live := by
  rcases Master.step_cases h with ⟨-, hquiet⟩ | ⟨i, ans, -, -, -, hstart⟩
  · exact hquiet.live
  · unfold Master.startWorker at hstart
    obtain ⟨⟨r, t⟩, -, hstart⟩ := Option.bind_eq_some_iff.mp hstart
    exact (Prod.mk.inj (Option.some.inj hstart)).1 ▸ rfl

theorem Master.Follows.step {m m' : Master} {x : Input SpawnAnswers} {made : Option Worker}
    (h : m.Follows fds) (hlive : m.live = 1) (hstep : m.step R x = some (m', made)) :
    m'.Follows fds := by
  cases x with
  | signal signo sender =>
    obtain ⟨hrunning, rfl, -⟩ := Master.step_signal hstep
    exact h.receive hrunning
  | go ans =>
    unfold Master.step at hstep
    cases hpoint : m.point with
    | ended how => simp [hpoint] at hstep
    | suspended => simp [hpoint] at hstep
    | starting i =>
      simp only [hpoint] at hstep
      cases h with
      | stopped _ hp => cases hpoint.symm.trans hp
      | started _ hp => exact absurd hpoint (hp i)
      | starting hstarts hp =>
        obtain rfl := MasterPoint.starting.inj (hp.symm.trans hpoint)
        split at hstep
        · rename_i hi
          obtain ⟨hnext, hp'⟩ := hstarts.call hi hstep
          exact .starting hnext hp'
        · rename_i hi
          obtain ⟨rfl, -⟩ := Prod.mk.inj (Option.some.inj hstep)
          obtain ⟨answers, hrun⟩ := hstarts.done hi
          exact .started hrun (by simp)
    | waiting =>
      simp only [hpoint, Option.some.injEq, Prod.mk.injEq] at hstep
      obtain ⟨rfl, -⟩ := hstep
      cases h with
      | starting _ hp | stopped _ hp => cases hpoint.symm.trans hp
      | started hrun _ => exact .started (masterProcessCycle_snoc hrun (true, true)) (by simp)
    | woken =>
      simp only [hpoint, Option.some.injEq, Prod.mk.injEq] at hstep
      obtain ⟨rfl, -⟩ := hstep
      cases h with
      | starting _ hp | stopped _ hp => cases hpoint.symm.trans hp
      | started hrun _ =>
        unfold Master.round
        rw [if_neg (by simp [hlive])]
        split_ifs <;> exact .started hrun (by simp)

/-- **The master does what `masterProcessCycle` does**, however the steps of the workers and the
signals come between its own: up to its last step, or to the signal that ends it. -/
theorem histories_master (hfds : ∀ fd ∈ fds, 0 ≤ fd) (h : R.Histories pid flags fds ms f) :
    ∃ answers signals events t, masterProcessCycle answers signals (.start fds) = some (events, t) ∧
      f.parent.events <+: events ∧
      ((∀ i, f.parent.point ≠ .starting i) → (∀ how, f.parent.point ≠ .ended how) →
        events = f.parent.events ∧ t = f.parent.table) := by
  have hinv := (histories_linked hfds h).parent
  have hfollows : f.parent.live = 1 ∧ f.parent.Follows fds := by
    refine h.parent_history (I := fun _ m => m.live = 1 ∧ m.Follows fds) ?_ ?_
    · refine ⟨rfl, .starting (i := 0) ⟨Nat.zero_le 2, ?_⟩ rfl⟩
      refine ⟨fun _ => ⟨none, true, true, true, true, true, true, none⟩, fun answers' _ => ?_⟩
      exact Option.map_id'.symm
    · rintro xs m x m' made ⟨hlive, hm⟩ hstep
      exact ⟨(Master.step_live hstep).trans hlive, hm.step hlive hstep⟩
  have hstarts : ∀ i, f.parent.Starts fds i → ∃ answers events t,
      masterProcessCycle answers [] (.start fds) = some (events, t) ∧
        f.parent.events <+: events := by
    rintro i ⟨hi, answers, hanswers⟩
    -- a system on which all further calls fail will do
    let failing : SpawnAnswers := ⟨none, true, true, true, true, true, true, none⟩
    let answers' : Nat → SpawnAnswers := fun j => if j < i then answers j else failing
    have hpairs : ∀ j a b, ((fun _ => failing : Nat → SpawnAnswers) j).socketpair = some (a, b) →
        0 ≤ a ∧ 0 ≤ b := by
      rintro j a b ⟨⟩
    obtain ⟨events, t, hrun, -⟩ := startWorkers_spec hpairs (2 - i) i f.parent.table
      (by rw [hinv.last]; have := hinv.next; unfold maxProcesses; omega) hinv.fds
    have hsame : startWorkers processRespawn answers' (2 - i) i f.parent.table
        = some (events, t) := by
      rw [← hrun]
      exact startWorkers_congr fun j hj => if_neg (Nat.not_lt.mpr hj)
    have hall := hanswers answers' fun j hj => if_pos hj
    rw [hsame, Option.map_some] at hall
    refine ⟨answers', _, t, ?_, List.prefix_append f.parent.events events⟩
    have hloop : startWorkerProcesses 2 processRespawn answers' (.start fds)
        = some (f.parent.events ++ events, t) := hall
    simp only [masterProcessCycle, hloop, Option.bind_eq_bind, Option.bind_some, masterRounds,
      List.append_nil]
  cases hfollows.2 with
  | starting hs hp =>
    obtain ⟨answers, events, t, hrun, hprefix⟩ := hstarts _ hs
    exact ⟨answers, [], events, t, hrun, hprefix, fun hne => absurd hp (hne _)⟩
  | stopped hs hp =>
    obtain ⟨answers, events, t, hrun, hprefix⟩ := hstarts _ hs
    exact ⟨answers, [], events, t, hrun, hprefix, fun _ hne => absurd hp (hne _)⟩
  | @started answers signals hrun _ =>
    exact ⟨answers, signals, _, _, hrun, List.prefix_rfl, fun _ _ => ⟨rfl, rfl⟩⟩

/-! ## 6. A worker that ends -/

/-- One module, without `init_process`, and no `process_events`. -/
def sampleRuntime : Runtime where
  disposition := (initSignals (fun _ => true) fun _ => .terminate).2
  hooks := [false]
  polls := false

/-- A system that grants nothing. -/
def refusing : SpawnAnswers := ⟨none, true, true, true, true, true, true, none⟩

/-- A worker is forked and ends at once, the other one is not forked; and the master waits, gets a
SIGQUIT, waits again and gets a SIGTERM. -/
def sampleMoves : List (Family.Move (Input SpawnAnswers) (Input Int)) :=
  [.parent (.go ⟨some (3, 4), true, true, true, true, true, true, some 100⟩), .child 0 (.go 0),
    .child 0 (.go 0), .child 0 (.go 0), .parent (.go refusing), .parent (.go refusing),
    .parent (.go refusing), .parent (.signal sigquit none), .parent (.go refusing),
    .parent (.go refusing), .parent (.signal sigterm none), .parent (.go refusing)]

theorem admits_signal (f : Family Master Worker) (signo : Nat) (sender : Option Nat) :
    SystemAdmits f (.parent (.signal signo sender)) := trivial

theorem admits_child (f : Family Master Worker) (k : Nat) (y : Input Int) :
    SystemAdmits f (.child k y) := trivial

theorem admits_refusing (f : Family Master Worker) :
    SystemAdmits f (.parent (.go refusing)) := by
  refine ⟨?_, ?_⟩
  · rintro a b ⟨⟩
  · rintro pid ⟨⟩

theorem sampleMoves_run : ∃ f w, sampleRuntime.Histories 10 .none [] sampleMoves f ∧
    f.children[0]? = some w ∧ f.parent.point = .waiting ∧
      f.parent.log.count .sigsuspend = 2 := by
  have hfirst : SystemAdmits ⟨Master.start 10 .none [], []⟩
      (.parent (.go ⟨some (3, 4), true, true, true, true, true, true, some 100⟩)) := by
    refine ⟨?_, ?_⟩
    · rintro a b ⟨⟩
      decide
    · rintro pid ⟨⟩
      exact ⟨by decide, by simp⟩
  have h₀ : sampleRuntime.Histories 10 .none [] [] ⟨Master.start 10 .none [], []⟩ := .start
  have h₁ := h₀.step hfirst rfl
  have h₂ := ((h₁.step (admits_child _ 0 (.go 0)) rfl).step (admits_child _ 0 (.go 0)) rfl).step
    (admits_child _ 0 (.go 0)) rfl
  have h₃ := ((h₂.step (admits_refusing _) rfl).step (admits_refusing _) rfl).step
    (admits_refusing _) rfl
  have h₄ := ((h₃.step (admits_signal _ sigquit none) rfl).step (admits_refusing _) rfl).step
    (admits_refusing _) rfl
  have h₅ := (h₄.step (admits_signal _ sigterm none) rfl).step (admits_refusing _) rfl
  exact ⟨_, _, h₅, rfl, rfl, rfl⟩

/-- The signals of the sample are installed. -/
theorem sampleRuntime_installed : initSignals (fun _ => true) (fun _ => .terminate)
    = (.ok (), sampleRuntime.disposition) := rfl

theorem histories_flags_sample : ∃ f, sampleRuntime.Histories 10 .none [] sampleMoves f ∧
    f.parent.flags.Tells ([] ++ heard (parentMoves sampleMoves)) := by
  obtain ⟨f, -, h, -⟩ := sampleMoves_run
  exact ⟨f, h, (histories_flags sampleRuntime_installed .none h).1⟩

/-- The master has come back from `sigsuspend` twice. -/
theorem histories_rounds_sample : ∃ f, sampleRuntime.Histories 10 .none [] sampleMoves f ∧
    f.parent.log.count .sigsuspend = 2 ∧ Explained [] f.parent.log ∧
      f.parent.log.count .sigsuspend
        = f.parent.log.count .terminate + f.parent.log.count .quit + f.parent.point.open := by
  obtain ⟨f, -, h, -, hpoint, hcount⟩ := sampleMoves_run
  obtain ⟨hexplained, hrounds⟩ := histories_rounds sampleRuntime_installed (by simp) .none h
  exact ⟨f, h, hcount, hexplained, hrounds (by simp [hpoint])⟩

theorem histories_master_sample : ∃ f answers signals events t,
    sampleRuntime.Histories 10 .none [] sampleMoves f ∧
      masterProcessCycle answers signals (.start []) = some (events, t) ∧
        f.parent.events <+: events := by
  obtain ⟨f, -, h, -⟩ := sampleMoves_run
  obtain ⟨answers, signals, events, t, hrun, hprefix, -⟩ := histories_master (by decide) h
  exact ⟨f, answers, signals, events, t, h, hrun, hprefix⟩

end Capwap
