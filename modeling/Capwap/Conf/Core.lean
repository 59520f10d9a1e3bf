/-
# The core module

The one module of the program, in `cw.c`: its configuration record, its single directive
`worker_processes`, and `cw_atoi`, which reads the number.

The handler works on the record its argument `conf` points to.  `Configured` puts the records and
the pointers to them next to a world of the caller's choice; that no allocation overlaps them is
what the pool's spatial invariant says.
-/
import Capwap.Conf.Parse
import Mathlib.Data.FinEnum

namespace Capwap

/-! ## 1. `cw_atoi`

The function is as in the source: a loop that counts `n` down, with the test against `cutoff` and
`cutlim` before it multiplies.  `decimal` is what a string of digits stands for, and `cwAtoi_eq` is
the equation between the two.  The line is a list that may go on behind the `n` bytes, since a word
has more behind it. -/

/-- `CW_ERROR`. -/
def cwError : Int := -1

/-- `CW_MAX_INT_T_VALUE`. -/
def maxIntTValue : Int := 2147483647

/-- The loop of `cw_atoi`, with `n` bytes of `line` to go. -/
def atoiLoop (cutoff cutlim : Int) : Nat → List UInt8 → Int → Int
  | 0, _, value => value
  | n + 1, line, value =>
    let c : Int := (line.headD 0).toNat
    if c < 48 ∨ c > 57 then cwError
    else if value ≥ cutoff ∧ (value > cutoff ∨ c - 48 > cutlim) then cwError
    else atoiLoop cutoff cutlim n line.tail (value * 10 + (c - 48))

/-- `cw_atoi`: the number that `n` bytes of `line` spell, or `CW_ERROR`. -/
def cwAtoi (line : List UInt8) (n : Nat) : Int :=
  if n = 0 then cwError else atoiLoop (maxIntTValue / 10) (maxIntTValue % 10) n line 0

/-- A decimal digit. -/
def isDigit (c : UInt8) : Bool := 48 ≤ c.toNat && c.toNat ≤ 57

/-- The value of a string of digits that stands behind digits of value `n`. -/
def decimalFrom (n : Nat) (ds : List UInt8) : Nat := ds.foldl (fun n c => n * 10 + (c.toNat - 48)) n

/-- The value of a string of digits. -/
def decimal (ds : List UInt8) : Nat := decimalFrom 0 ds

theorem le_decimalFrom : ∀ (ds : List UInt8) (n : Nat), n ≤ decimalFrom n ds
  | [], n => Nat.le_refl n
  | c :: ds, n => by
    have hrec := le_decimalFrom ds (n * 10 + (c.toNat - 48))
    have hstep : n ≤ n * 10 + (c.toNat - 48) := by omega
    exact Nat.le_trans hstep hrec

theorem atoiLoop_cons (cutoff cutlim : Int) (n : Nat) (c : UInt8) (line : List UInt8)
    (value : Int) : atoiLoop cutoff cutlim (n + 1) (c :: line) value
      = if (c.toNat : Int) < 48 ∨ (c.toNat : Int) > 57 then cwError
        else if value ≥ cutoff ∧ (value > cutoff ∨ (c.toNat : Int) - 48 > cutlim) then cwError
        else atoiLoop cutoff cutlim n line (value * 10 + ((c.toNat : Int) - 48)) := rfl

/-- The loop computes the value, unless it is too large or some byte is no digit.  The induction is
on the digits, and the value so far is within the limit. -/
theorem atoiLoop_eq (rest : List UInt8) : ∀ (ds : List UInt8) (n : Nat), n ≤ 2147483647 →
    atoiLoop (maxIntTValue / 10) (maxIntTValue % 10) ds.length (ds ++ rest) n
      = if (∀ c ∈ ds, isDigit c = true) ∧ decimalFrom n ds ≤ 2147483647 then
          (decimalFrom n ds : Int) else cwError
  | [], n, hn => by simp [atoiLoop, decimalFrom, hn]
  | c :: ds, n, hn => by
    have hvalue : decimalFrom n (c :: ds) = decimalFrom (n * 10 + (c.toNat - 48)) ds := rfl
    have hle := le_decimalFrom ds (n * 10 + (c.toNat - 48))
    have hdiv : maxIntTValue / 10 = 214748364 := by decide
    have hmod : maxIntTValue % 10 = 7 := by decide
    rw [List.length_cons, List.cons_append, atoiLoop_cons]
    by_cases hdigit : isDigit c = true
    · have hrange : 48 ≤ c.toNat ∧ c.toNat ≤ 57 := by simpa [isDigit] using hdigit
      have hin : ¬ ((c.toNat : Int) < 48 ∨ (c.toNat : Int) > 57) := by omega
      rw [if_neg hin]
      by_cases hover : n * 10 + (c.toNat - 48) ≤ 2147483647
      · -- the cut-off is not reached
        have hcut : ¬ ((n : Int) ≥ maxIntTValue / 10 ∧ ((n : Int) > maxIntTValue / 10 ∨
            (c.toNat : Int) - 48 > maxIntTValue % 10)) := by
          rw [hdiv, hmod]
          omega
        have hnext : (n : Int) * 10 + ((c.toNat : Int) - 48)
            = ((n * 10 + (c.toNat - 48) : Nat) : Int) := by omega
        rw [if_neg hcut, hnext, atoiLoop_eq rest ds _ hover, hvalue]
        simp only [List.mem_cons, forall_eq_or_imp, hdigit, true_and]
      · have hcut : (n : Int) ≥ maxIntTValue / 10 ∧ ((n : Int) > maxIntTValue / 10 ∨
            (c.toNat : Int) - 48 > maxIntTValue % 10) := by
          rw [hdiv, hmod]
          omega
        rw [if_pos hcut, if_neg]
        rintro ⟨-, hbound⟩
        omega
    · have hrange : ¬ (48 ≤ c.toNat ∧ c.toNat ≤ 57) := by simpa [isDigit] using hdigit
      have hout : (c.toNat : Int) < 48 ∨ (c.toNat : Int) > 57 := by omega
      rw [if_pos hout, if_neg]
      rintro ⟨hall, -⟩
      exact hdigit (hall c List.mem_cons_self)

/-- What `cw_atoi` returns for a string, whatever stands behind it: its value, or `CW_ERROR` if it
is empty, has a byte that is no digit, or is too large. -/
theorem cwAtoi_eq (ds rest : List UInt8) :
    cwAtoi (ds ++ rest) ds.length
      = if ds ≠ [] ∧ (∀ c ∈ ds, isDigit c = true) ∧ decimal ds ≤ 2147483647 then
          (decimal ds : Int) else cwError := by
  unfold cwAtoi
  by_cases hnil : ds = []
  · simp [hnil]
  · have hloop := atoiLoop_eq rest ds 0 (by decide)
    rw [if_neg (by simpa using hnil)]
    simp only [ne_eq, hnil, not_false_eq_true, true_and]
    exact hloop

/-! ## 2. The configuration record

`cw_core_module_create_conf` allocates the record and sets what is listed here; the other fields
stay as `cw_pcalloc` has zeroed them.  The parser knows records by their addresses only. -/

/-- `CW_CONF_UNSET`. -/
def confUnset : Int := -1

/-- `CW_CONF_UNSET_MSEC`. -/
def confUnsetMsec : Nat := 2 ^ 64 - 1

/-- `cw_core_conf_t`, as far as `cw_core_module_create_conf` sets it; the element area of `env`
is at `env`. -/
structure CoreConf where
  daemon : Int
  master : Int
  timerResolution : Nat
  shutdownTimeout : Nat
  workerProcesses : Int
  debugPoints : Int
  rlimitNofile : Int
  rlimitCore : Int
  env : Nat
deriving DecidableEq, Repr

/-- A fresh configuration: no value has been set. -/
def CoreConf.fresh (env : Nat) : CoreConf :=
  { daemon := confUnset, master := confUnset, timerResolution := confUnsetMsec,
    shutdownTimeout := confUnsetMsec, workerProcesses := confUnset, debugPoints := confUnset,
    rlimitNofile := confUnset, rlimitCore := confUnset, env := env }

/-- A world with the pointers that can be loaded and the core configurations, by address. -/
structure Configured (τ : Type) where
  sys : τ
  slots : Nat → Nat
  core : Nat → CoreConf

namespace Configured

variable {τ : Type}

/-- `ccf->worker_processes = n`. -/
def setWorkers (w : Configured τ) (ccf : Nat) (n : Int) : Configured τ :=
  { w with core := fun a => if a = ccf then { w.core a with workerProcesses := n } else w.core a }

@[simp] theorem setWorkers_slots (w : Configured τ) (ccf : Nat) (n : Int) :
    (w.setWorkers ccf n).slots = w.slots := rfl

@[simp] theorem setWorkers_sys (w : Configured τ) (ccf : Nat) (n : Int) :
    (w.setWorkers ccf n).sys = w.sys := rfl

@[simp] theorem setWorkers_core (w : Configured τ) (ccf : Nat) (n : Int) :
    (w.setWorkers ccf n).core ccf = { w.core ccf with workerProcesses := n } := if_pos rfl

/-- A call of the system below. -/
def lift {α : Type} (w : Configured τ) (r : α × τ) : α × Configured τ :=
  (r.1, { w with sys := r.2 })

end Configured

/-- The system, over a world with configurations; the calls do not touch these.  The parser loads
the pointer to a record from `slots`. -/
def Sys.configured {τ : Type} (S : Sys τ) : Sys (Configured τ) where
  openFile name w := w.lift (S.openFile name w.sys)
  fdInfo fd w := w.lift (S.fdInfo fd w.sys)
  alloc n w := w.lift (S.alloc n w.sys)
  free p w := { w with sys := S.free p w.sys }
  pread fd n off w := w.lift (S.pread fd n off w.sys)
  closeFile fd w := w.lift (S.closeFile fd w.sys)
  clearArgs w := { w with sys := S.clearArgs w.sys }
  arrayPush w := w.lift (S.arrayPush w.sys)
  pnalloc n w := w.lift (S.pnalloc n w.sys)
  load a w := w.slots a

/-! ## 3. The directive

The handler of `worker_processes` refuses to set the value twice, compares the word with `auto` by
`cw_strcmp`, which reads a string up to its NUL, and otherwise stores what `cw_atoi` returns before
it looks whether that is an error. -/

/-- The text `auto`. -/
def autoText : List UInt8 := [97, 117, 116, 111]

/-- The text `worker_processes`. -/
def workerProcessesText : List UInt8 :=
  [119, 111, 114, 107, 101, 114, 95, 112, 114, 111, 99, 101, 115, 115, 101, 115]

section
variable {τ : Type}

/-- `cw_set_worker_processes`; `ncpu` is `cw_ncpu`, and `value[1]` is the second word, which is
there since the command takes one argument. -/
def setWorkerProcesses (ncpu : Int) (view : View) (args : List Word) (conf : Nat)
    (w : Configured τ) : Act (Configured τ) :=
  if (w.core conf).workerProcesses ≠ confUnset then .ret (.message "is duplicate") view w
  else
    let value := args.getD 1 ⟨0, []⟩
    if cStr value.data = autoText then .ret .ok view (w.setWorkers conf ncpu)
    else
      let w := w.setWorkers conf (cwAtoi value.data value.len)
      if (w.core conf).workerProcesses = cwError then .ret (.message "invalid value") view w
      else .ret .ok view w

/-- `cw_core_commands`, without the entry that ends the array. -/
def coreCommands (ncpu : Int) : List (Command (Configured τ)) :=
  [{ name := workerProcessesText
     type := mainConf ||| directConf ||| confTake1
     conf := 0
     set := setWorkerProcesses ncpu }]

/-- `cw_core_module`, at position `index` of the modules; `ctx_index` is never set. -/
def cwCoreModule (ncpu : Int) (index : Nat) : Module (Configured τ) :=
  { type := coreModule, index := index, ctxIndex := 2 ^ 64 - 1
    commands := some (coreCommands ncpu) }

/-- The modules of the program.  Nothing sets `cf->handler`. -/
def coreTable (ncpu : Int) : Table (Configured τ) :=
  { modules := [cwCoreModule ncpu 0]
    custom := fun _ view _ w => .ret .ok view w }

end

end Capwap
