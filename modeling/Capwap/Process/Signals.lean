/-
# Signals

`cw_init_signals` installs a handler for each signal of the table `signals`, and stops at the first
`sigaction` that fails.  The handler sets a flag and logs a line.  The flags are read in the
loops of the processes.

Once `cw_init_signals` has succeeded, the signals of the table are handled, and all others are what
they were (`initSignals_ok_iff`).  Nothing resets a flag, so each tells whether its signal has come
(`SignalFlags.Tells`).
-/
import Capwap.Process.Spawn
import Mathlib.Data.List.Basic

namespace Capwap

/-! ## 1. The table

The numbers are those of Linux.  An entry has the signal's number, its name, and a handler; a
`NULL` there would mean that the signal is ignored. -/

def sigquit : Nat := 3
def sigterm : Nat := 15

/-- `cw_signal_t`; the handler is `cw_signal_handler` or `NULL`. -/
structure Signal where
  signo : Nat
  signame : String
  name : String
  handler : Bool
deriving DecidableEq, Repr

/-- `signals`, up to the entry that ends it: the two that are handled. -/
def signals : List Signal :=
  [{ signo := sigquit, signame := "SIGQUIT", name := "quit", handler := true },
    { signo := sigterm, signame := "SIGTERM", name := "stop", handler := true }]

/-- What a signal does to a process: it ends it, or is ignored, or runs the handler. -/
inductive Disposition
  | terminate
  | ignore
  | handler
deriving DecidableEq, Repr

/-- `cw_terminate` and `cw_quit`. -/
structure SignalFlags where
  terminate : Int
  quit : Int
deriving DecidableEq, Repr

/-- The lines the processes log, with what goes into them. -/
inductive LogLine
  | sigaction (signame : String)
  | signal (signo : Nat) (signame : String) (sender : Option Nat) (action : String)
  | startWorkers
  | spawn (name : String) (pid : Nat)
  | spawnFailed (e : SpawnError)
  | sigsuspend
  | terminate
  | quit
  | masterExit
  | workerCycle
  | exiting
deriving DecidableEq, Repr

/-- The format. -/
def LogLine.format : LogLine → String
  | .sigaction _ => "sigaction(%s) failed"
  | .signal _ _ (some _) _ => "signal %d (%s) received from %d%s"
  | .signal _ _ none _ => "signal %d (%s) received%s"
  | .startWorkers => "start worker processes"
  | .spawn _ _ => "start %s %d"
  | .spawnFailed e => e.format
  | .sigsuspend => "sigsuspend"
  | .terminate => "do something terminate..."
  | .quit => "do something quit..."
  | .masterExit => "master process exit"
  | .workerCycle => "worker cycle"
  | .exiting => "exiting"

/-! ## 2. `cw_init_signals` and `cw_signal_handler`

The dispositions are a function from signals to what they do.  `sigaction` changes one value of it,
or fails.  The handler gets the flags and returns them with the line that it logs. -/

/-- The loop of `cw_init_signals`; `answers` says for which signals `sigaction` succeeds. -/
def initSignalsFrom (answers : Nat → Bool) :
    List Signal → (Nat → Disposition) → Except LogLine Unit × (Nat → Disposition)
  | [], D => (.ok (), D)
  | sig :: rest, D =>
    if answers sig.signo = false then (.error (.sigaction sig.signame), D)
    else initSignalsFrom answers rest
      (Function.update D sig.signo (if sig.handler then .handler else .ignore))

/-- `cw_init_signals`: the dispositions afterwards, and the line that is logged where a `sigaction`
fails. -/
def initSignals (answers : Nat → Bool) (D : Nat → Disposition) :
    Except LogLine Unit × (Nat → Disposition) := initSignalsFrom answers signals D

/-- `cw_signal_handler`; `sender` is `siginfo->si_pid`, where there is one that is not 0.  The entry
that ends the table has no `signame`. -/
def signalHandler (signo : Nat) (sender : Option Nat) (f : SignalFlags) : SignalFlags × LogLine :=
  let signame := ((signals.find? fun sig => sig.signo = signo).map Signal.signame).getD "(null)"
  if signo = sigquit then
    ({ f with quit := 1 }, .signal signo signame sender ", shutting down")
  else if signo = sigterm then
    ({ f with terminate := 2 }, .signal signo signame sender ", exiting")
  else (f, .signal signo signame sender "")

/-! ## 3. What is handled -/

/-- A successful call installs what the table says and nothing else.  The induction is on the
table. -/
theorem initSignalsFrom_ok {answers : Nat → Bool} :
    ∀ {sigs : List Signal} {D D' : Nat → Disposition},
      (sigs.map Signal.signo).Nodup → initSignalsFrom answers sigs D = (.ok (), D') →
      (∀ sig ∈ sigs, D' sig.signo = if sig.handler then .handler else .ignore) ∧
        ∀ signo, signo ∉ sigs.map Signal.signo → D' signo = D signo := by
  intro sigs
  induction sigs with
  | nil =>
    intro D D' _ h
    obtain ⟨-, rfl⟩ := Prod.mk.inj h
    exact ⟨by simp, fun _ _ => rfl⟩
  | cons sig rest ih =>
    intro D D' hnodup h
    rw [List.map_cons, List.nodup_cons] at hnodup
    unfold initSignalsFrom at h
    split at h
    · cases (Prod.mk.inj h).1
    · obtain ⟨hin, hout⟩ := ih hnodup.2 h
      constructor
      · intro s hs
        rcases List.mem_cons.mp hs with rfl | hs
        · rw [hout _ hnodup.1, Function.update_self]
        · exact hin s hs
      · intro signo hsigno
        rw [List.map_cons, List.mem_cons, not_or] at hsigno
        rw [hout signo hsigno.2, Function.update_of_ne hsigno.1]

/-- `cw_init_signals` succeeds just when every `sigaction` does.  Then the two signals of the table
are handled, and every other is what it was before. -/
theorem initSignals_ok_iff (answers : Nat → Bool) (D D' : Nat → Disposition) :
    initSignals answers D = (.ok (), D') ↔
      (answers sigquit = true ∧ answers sigterm = true) ∧
        ∀ signo, D' signo = if signo = sigquit ∨ signo = sigterm then .handler else D signo := by
  constructor
  · intro h
    refine ⟨?_, fun signo => ?_⟩
    · simp only [initSignals, signals, initSignalsFrom] at h
      split at h
      · cases (Prod.mk.inj h).1
      split at h
      · cases (Prod.mk.inj h).1
      rename_i hquit hterm
      exact ⟨by simpa using hquit, by simpa using hterm⟩
    · obtain ⟨hin, hout⟩ := initSignalsFrom_ok (by decide) h
      split
      · rename_i hsigno
        rcases hsigno with rfl | rfl
        · exact hin _ (List.mem_cons_self ..)
        · exact hin _ (List.mem_cons_of_mem _ (List.mem_singleton.mpr rfl))
      · rename_i hsigno
        exact hout signo (by simpa [signals] using hsigno)
  · rintro ⟨⟨hquit, hterm⟩, hD⟩
    simp only [initSignals, signals, initSignalsFrom, hquit, hterm, Bool.true_eq_false, if_false,
      if_true, Prod.mk.injEq, true_and]
    funext signo
    rw [hD signo]
    by_cases h2 : signo = sigterm
    · subst h2
      simp
    · rw [Function.update_of_ne h2]
      by_cases h1 : signo = sigquit
      · subst h1
        simp
      · rw [Function.update_of_ne h1, if_neg (by simp [h1, h2])]

/-! ## 4. The flags

A handler sets its flag and no code clears one, so the flags are a record of what has come: not how
often, and not in which order. -/

namespace SignalFlags

/-- No signal yet. -/
def none : SignalFlags := ⟨0, 0⟩

/-- The flags tell which of the signals are among `heard`: a flag is set just when its signal
is. -/
structure Tells (heard : List Nat) (f : SignalFlags) : Prop where
  terminate : f.terminate = if sigterm ∈ heard then 2 else 0
  quit : f.quit = if sigquit ∈ heard then 1 else 0

theorem Tells.none : SignalFlags.none.Tells [] := ⟨rfl, rfl⟩

/-- One more signal. -/
theorem Tells.handled {heard : List Nat} {f : SignalFlags} (h : f.Tells heard) (signo : Nat)
    (sender : Option Nat) : (signalHandler signo sender f).1.Tells (heard ++ [signo]) := by
  have hkeep : ∀ {n : Nat}, n ≠ signo → (n ∈ heard ++ [signo] ↔ n ∈ heard) := by
    intro n hn
    simp [hn]
  obtain ⟨hterm, hquit⟩ := h
  unfold signalHandler
  by_cases h1 : signo = sigquit
  · subst h1
    refine ⟨?_, by simp⟩
    rw [if_congr (hkeep (by decide)) rfl rfl]
    exact hterm
  · by_cases h2 : signo = sigterm
    · subst h2
      refine ⟨by simp [sigterm, sigquit], ?_⟩
      rw [if_congr (hkeep (by decide)) rfl rfl]
      exact hquit
    · rw [if_neg h1, if_neg h2]
      constructor
      · rw [if_congr (hkeep (Ne.symm h2)) rfl rfl]
        exact hterm
      · rw [if_congr (hkeep (Ne.symm h1)) rfl rfl]
        exact hquit

end SignalFlags

end Capwap
