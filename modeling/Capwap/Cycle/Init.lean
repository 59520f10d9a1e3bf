/-
# `cw_init_cycle` releases everything, or it does not

`cw_init_cycle` makes a pool, sets a cycle up in it step by step (`setUp`), and opens the listening
sockets.  Where a step fails, it cleans up and returns `NULL`: `InitError.leave` is what each of
these exits does, as the source has it, and `initCycle` puts the parts together.

All or nothing (`AllOrNothing`) would mean that a failed call gives everything back, and that a
successful one keeps only the cycle's pool.  Up to the parse, every step keeps `Machine.Held`
(`setUp_spec`), so whatever the exit, it is known what is held there.  The exits that destroy all
pools are in order; the one after `cw_cycle_modules`, the one after `cw_open_listening_sockets` and
the successful one leave a pool behind, and the two of the parser leave `environ` empty.
-/
import Capwap.Cycle.Machine
import Mathlib

namespace Capwap

open Std.Do

/-! ## 1. The parts of a cycle

Structures of the source are cut down to what `cw_init_cycle` reads and writes; the sizes are those
of the whole structures, on a machine of 64 bits, since they are what is allocated. -/

/-- `sizeof(cw_cycle_t)`. -/
def sizeofCycle : Nat := 112

/-- `sizeof(cw_core_conf_t)`. -/
def sizeofCoreConf : Nat := 184

/-- `sizeof(cw_str_t)`. -/
def sizeofStr : Nat := 16

/-- `sizeof(void *)`. -/
def sizeofPointer : Nat := 8

/-- `CW_MAX_DYNAMIC_MODULES`. -/
def maxDynamicModules : Nat := 128

/-- `cw_cycle_t`, as far as it is read; `pool` and `listening` are in the machine. -/
structure Cycle where
  confCtx : Nat
  modules : Nat
  confFile : Word
  confParam : List UInt8
deriving DecidableEq, Repr

/-- A module: where it lies, its name, and what its context has if it is a core module.  `init_conf`
is a function's address; it is called nowhere. -/
structure CycleModule where
  self : Nat
  name : String
  module : Module (Configured Machine)
  createConf : Option (Configured Machine → Option Nat × Configured Machine)
  initConf : Option Nat

/-- The steps at which the set-up can fail once there is a pool, in the order of the source.  The
two calls of the parser carry their error. -/
inductive InitError
  | cycle
  | confCtx
  | confFile
  | modules
  | createConf
  | args
  | tempPool
  | param (e : ParseError)
  | parse (e : ParseError)
deriving DecidableEq, Repr

/-- The set-up of a cycle, as a state monad with exceptions: a step that fails ends it with an
error, and the machine is what it is there. -/
abbrev Setup : Type → Type := EStateM InitError (Configured Machine)

/-- The bytes `cw_cpystrn` writes: those of the string up to its NUL, at most `n` with the NUL. -/
def cpystrn : List UInt8 → Nat → List UInt8
  | _, 0 => []
  | _, 1 => [0]
  | src, n + 2 =>
    let c := src.headD 0
    if c = 0 then [0] else c :: cpystrn src.tail (n + 1)

/-! ## 2. The steps

Each step of `cw_init_cycle` has a definition of its own, in the order of the source; `setUp` is
the sequence.  Module code comes in at three places: `create_conf` is called by a loop, the
handlers by the parser, and `cf->handler` too, if some handler sets it.  Each call into a module is
recorded before it is made or, for `create_conf`, with what it returned. -/

section
variable (A : Alignment)

/-- A call on the cycle's pool; `NULL` is the failure `e`. -/
def poolCall (e : InitError) (op : PoolOp) : Setup Nat := do
  match ← modifyGet fun w => w.lift (w.sys.call A op) with
  | none => throw e
  | some p => return p

/-- Some bytes are set to zero, so that the pointers there are null. -/
def zeroSlots (p size : Nat) : Setup Unit :=
  modify fun w => { w with slots := fun a => if p ≤ a ∧ a < p + size then 0 else w.slots a }

/-- An assignment of a pointer. -/
def setSlot (p rv : Nat) : Setup Unit :=
  modify fun w => { w with slots := fun a => if a = p then rv else w.slots a }

/-- A call into a module. -/
def called (c : ModuleCall) : Setup Unit := modify fun w => { w with sys := w.sys.record c }

/-- `memcpy` of pointers. -/
def copyPointers (p : Nat) : List Nat → Setup Unit
  | [] => pure ()
  | x :: xs => do
    setSlot p x
    copyPointers (p + sizeofPointer) xs

/-- `cw_cycle_modules`; there may be `maxModule` modules. -/
def cycleModules (maxModule : Nat) (mods : List CycleModule) : Setup Nat := do
  let size := wmul (wadd maxModule 1) sizeofPointer
  let modules ← poolCall A .modules (.pcalloc size)
  zeroSlots modules size
  copyPointers modules (mods.map CycleModule.self)
  return modules

/-- The loop over the modules that calls `create_conf`, and stores what it returns in the module's
slot of `conf_ctx`. -/
def createConfs (confCtx : Nat) : List CycleModule → Setup Unit
  | [] => pure ()
  | c :: cs => do
    if c.module.type = coreModule then
      match c.createConf with
      | none => pure ()
      | some create =>
        let rv ← modifyGet create
        called (.createConf c.module.index rv)
        match rv with
        | none => throw .createConf
        | some rv => setSlot (confCtx + sizeofPointer * c.module.index) rv
    createConfs confCtx cs

/-- `conf.args`, made with 10 elements.  It becomes the last array of the cycle's pool. -/
def createArgs : Setup Unit := do
  let _ ← poolCall A .args (.arrayCreate 10 sizeofStr)
  modify fun w => { w with sys.main.arrays := w.sys.main.arrays.rotate 1 }

/-- `conf.temp_pool`. -/
def createTemp : Setup Unit := do
  let pool ← modifyGet fun w =>
    w.lift (let r := createPool cyclePoolSize w.sys.heap; (r.1, { w.sys with heap := r.2 }))
  match pool with
  | none => throw .tempPool
  | some pool =>
    modify fun w => { w with sys.temp := some { pool := pool, plain := [], arrays := [] } }

/-- One of the two calls of the parser, `cw_conf_param` or `cw_conf_parse`; its error is the
failure. -/
def configure (e : ParseError → InitError)
    (f : Cf (Configured Machine) → Except ParseError Unit × Cf (Configured Machine))
    (cf : Cf (Configured Machine)) : Setup (Cf (Configured Machine)) := do
  let r ← modifyGet fun w => let r := f { cf with world := w }; (r, r.2.world)
  match r.1 with
  | .ok _ => return r.2
  | .error err => throw (e err)

/-- What the modules are for the parser. -/
def cycleTable (mods : List CycleModule)
    (custom : Nat → View → List Word → Configured Machine → Act (Configured Machine)) :
    Table (Configured Machine) :=
  { modules := mods.map CycleModule.module, custom := custom }

/-- A module whose handlers are recorded when they are called. -/
def Module.recorded (m : Module (Configured Machine)) : Module (Configured Machine) :=
  { m with
    commands := m.commands.map fun cmds => cmds.map fun cmd =>
      { cmd with
        set := fun view args conf w =>
          cmd.set view args conf
            { w with sys := w.sys.record (.set m.index cmd.type view conf) } } }

/-- A table whose handlers are recorded when they are called. -/
def Table.recorded (T : Table (Configured Machine)) : Table (Configured Machine) :=
  { modules := T.modules.map Module.recorded
    custom := fun handler view args w =>
      T.custom handler view args { w with sys := w.sys.record (.custom handler) } }

/-- `cw_init_cycle` from the first allocation in the pool to the parse of the file, for calls of
the parser nested at most `depth` deep. -/
def setUp (mods : List CycleModule)
    (custom : Nat → View → List Word → Configured Machine → Act (Configured Machine))
    (depth : Nat) (old : Cycle) : Setup Cycle := do
  let _ ← poolCall A .cycle (.pcalloc sizeofCycle)
  let maxModule := wadd mods.length maxDynamicModules
  let confCtx ← poolCall A .confCtx (.pcalloc (wmul maxModule sizeofPointer))
  zeroSlots confCtx (wmul maxModule sizeofPointer)
  let size := wadd old.confFile.len 1
  let _ ← poolCall A .confFile (.pnalloc size)
  let confFile : Word := ⟨old.confFile.len, cpystrn old.confFile.data size⟩
  let modules ← cycleModules A maxModule mods
  createConfs confCtx mods
  createArgs A
  createTemp
  let cycle : Cycle := ⟨confCtx, modules, confFile, []⟩
  let view : View := { ctx := confCtx, moduleType := coreModule, cmdType := mainConf, handler := 0 }
  let sys := (Machine.sys A).configured
  let table := (cycleTable mods custom).recorded
  let cf ← configure .param (confParam sys table depth cycle.confParam)
    { args := [], conf := none, view := view, world := ← get }
  let _ ← configure .parse (confParse sys table depth (some (cStr cycle.confFile.data))) cf
  return cycle

end

/-- One round of `cw_open_listening_sockets`; no socket means `CW_ERROR`.  A round that got a
socket and cannot use it closes it. -/
def openListening (l : Listening) (k : Kernel) : Option Listening × Kernel :=
  if l.ignore then (some l, k)
  else if l.fd ≠ -1 then (some l, k)
  else
    let s := k.openFd
    if s.1 = -1 then (none, s.2)
    else
      let setsockopt := s.2.answer
      let k := s.2.ask
      if ¬ setsockopt.ok then (none, (k.closeFd s.1).2)
      else
        let nonblocking := k.answer
        let k := k.ask
        if ¬ nonblocking.ok then (none, (k.closeFd s.1).2)
        else
          let bind := k.answer
          let k := k.ask
          -- an address in use is not an error
          if ¬ bind.ok then (if bind.inUse then some l else none, (k.closeFd s.1).2)
          else if ¬ l.stream then (some { l with fd := s.1 }, k)
          else
            let listen := k.answer
            let k := k.ask
            if ¬ listen.ok then (if listen.inUse then some l else none, (k.closeFd s.1).2)
            else (some { l with listen := true, fd := s.1 }, k)

/-- `cw_open_listening_sockets`. -/
def openListeningSockets : List Listening → Kernel → Bool × List Listening × Kernel
  | [], k => (true, [], k)
  | l :: ls, k =>
    match openListening l k with
    | (none, k) => (false, l :: ls, k)
    | (some l, k) =>
      let r := openListeningSockets ls k
      (r.1, l :: r.2.1, r.2.2)

/-- `cw_core_module_create_conf`. -/
def coreCreateConf (A : Alignment) (w : Configured Machine) : Option Nat × Configured Machine :=
  match w.sys.call A (.pcalloc sizeofCoreConf) with
  | (none, m) => (none, { w with sys := m })
  | (some ccf, m) =>
    -- `cw_array_init` on `ccf->env`
    let r := m.call A (.palloc (wmul 1 sizeofStr))
    let fresh := CoreConf.fresh (r.1.getD 0)
    (r.1.map fun _ => ccf,
      { w with sys := r.2, core := fun a => if a = ccf then fresh else w.core a })

/-- `cw_modules`, as `auto/modules` writes it; the addresses are the linker's. -/
def cwModules (A : Alignment) (ncpu : Int) : List CycleModule :=
  [{ self := 0x6000
     name := "cw_core_module"
     module := cwCoreModule ncpu 0
     createConf := some (coreCreateConf A)
     initConf := some 0x4000 }]

/-- Nothing sets `cf->handler`. -/
def noCustom (_ : Nat) (view : View) (_ : List Word) (w : Configured Machine) :
    Act (Configured Machine) := .ret .ok view w

/-! ## 3. `cw_init_cycle`

The exits are written one by one, as in the source, since the question is how they differ.  A call
is a sequence of steps that ends at an exit or is done; what the caller gets, and which step
failed, are both read off from that. -/

/-- `cw_destroy_cycle_pools`. -/
def destroyCyclePools (m : Machine) : Heap :=
  let h := match m.temp with
    | some temp => destroyPool temp.pool m.heap
    | none => m.heap
  destroyPool m.main.pool h

/-- What `cw_init_cycle` does about a failed step before it returns `NULL`.  The local `senv` is
`NULL` throughout, and the two exits of the parser assign it to `environ`. -/
def InitError.leave (e : InitError) (m : Machine) : Host :=
  match e with
  | .cycle | .confCtx | .confFile => { m.toHost with heap := destroyPool m.main.pool m.heap }
  | .modules => m.toHost
  | .createConf | .args | .tempPool => { m.toHost with heap := destroyPool m.main.pool m.heap }
  | .param _ | .parse _ => { m.toHost with environ := 0, heap := destroyCyclePools m }

/-- The steps of a call. -/
inductive InitStep
  | pool
  | setUp (e : InitError)
  | listening
deriving DecidableEq, Repr

/-- How a call goes: a step fails, and its exit leaves a host, or all are done. -/
inductive InitOutcome
  | stopped (s : InitStep) (w : Configured Host)
  | finished (cycle : Cycle) (w : Configured Machine)

/-- What a call leaves: the host, if it returned `NULL`, or a cycle and the machine. -/
inductive InitResult
  | failed (w : Configured Host)
  | returned (cycle : Cycle) (w : Configured Machine)

/-- What the caller gets. -/
def InitOutcome.result : InitOutcome → InitResult
  | .stopped _ w => .failed w
  | .finished cycle w => .returned cycle w

/-- The step that failed. -/
def InitOutcome.failure : InitOutcome → Option InitStep
  | .stopped s _ => some s
  | .finished _ _ => none

section
variable (A : Alignment) (mods : List CycleModule)
variable (custom : Nat → View → List Word → Configured Machine → Act (Configured Machine))
variable (depth : Nat) (old : Cycle)

/-- The machine with its first pool. -/
def Configured.withPool (w : Configured Host) (pool : Pool) (heap : Heap) : Configured Machine :=
  { sys :=
      { w.sys with
        heap := heap
        main := { pool := pool, plain := [], arrays := [] }
        temp := none
        listening := [] }
    slots := w.slots
    core := w.core }

/-- The host below a machine. -/
def Configured.below (w : Configured Machine) (host : Host) : Configured Host :=
  { sys := host, slots := w.slots, core := w.core }

/-- `cw_init_cycle`, step by step: the pool, the set-up, and the listening sockets. -/
def initSteps (w₀ : Configured Host) : InitOutcome :=
  match createPool cyclePoolSize w₀.sys.heap with
  | (none, heap) => .stopped .pool { w₀ with sys.heap := heap }
  | (some pool, heap) =>
    match setUp A mods custom depth old (w₀.withPool pool heap) with
    | .error e w => .stopped (.setUp e) (w.below (e.leave w.sys))
    | .ok cycle w =>
      match openListeningSockets w.sys.listening w.sys.kernel with
      | (ok, ls, k) =>
        let w := { w with sys.listening := ls, sys.kernel := k }
        if ok then .finished cycle w else .stopped .listening (w.below w.sys.toHost)

/-- `cw_init_cycle`. -/
def initCycle (w₀ : Configured Host) : InitResult := (initSteps A mods custom depth old w₀).result

/-- The first step that fails. -/
def firstFailure (w₀ : Configured Host) : Option InitStep :=
  (initSteps A mods custom depth old w₀).failure

end

/-! ## 4. All or nothing

The property speaks of ledgers, not of exits: of the regions of the heap and the descriptors of the
kernel before and after, and of `environ`.  Which exits have it is then a short table
(`InitStep.Complete`), and that the table is right is the theorem. -/

/-- What was obtained from `host` on has been given back, once, and `environ` is as it was.  The
ledgers say it as a permutation: what was released since is what was obtained since. -/
structure Restored (host host' : Host) : Prop where
  regions : ∃ mine, host'.heap.got = mine ++ host.heap.got ∧
    host'.heap.freed.Perm (mine ++ host.heap.freed)
  frees : host'.heap.faults = []
  descriptors : ∃ mine, host'.kernel.got = mine ++ host.kernel.got ∧
    host'.kernel.closed.Perm (mine ++ host.kernel.closed)
  closes : host'.kernel.faults = []
  environ : host'.environ = host.environ

/-- Of what was obtained from `host` on, the cycle's pool is all that is live. -/
def OnlyPool (host : Host) (m : Machine) : Prop :=
  ∀ r ∈ m.heap.live, r ∈ host.heap.live ∨ (∃ b ∈ m.main.pool.blocks, r.base = b.base) ∨
    ∃ l ∈ m.main.pool.large, l.alloc = some r.base

/-- A call that fails restores the host, and one that returns a cycle keeps one pool. -/
structure AllOrNothing (host : Host) (r : InitResult) : Prop where
  failed : ∀ w, r = .failed w → Restored host w.sys
  returned : ∀ cycle w, r = .returned cycle w → OnlyPool host w.sys

/-- The exits that put everything back, given `environ` before the call: those of the parser do if
it was `NULL` anyway. -/
def InitStep.Complete (environ : Nat) : InitStep → Prop
  | .pool => True
  | .setUp .cycle | .setUp .confCtx | .setUp .confFile => True
  | .setUp .modules => False
  | .setUp .createConf | .setUp .args | .setUp .tempPool => True
  | .setUp (.param _) | .setUp (.parse _) => environ = 0
  | .listening => False

/-- Module code uses the pools and the listening sockets only: `create_conf`, the handlers, and the
custom handler. -/
structure ModulesUse (A : Alignment) (mods : List CycleModule)
    (custom : Nat → View → List Word → Configured Machine → Act (Configured Machine)) : Prop where
  create : ∀ c ∈ mods, ∀ create, c.createConf = some create →
    ∀ w : Configured Machine, Machine.Uses A w.sys (create w).2.sys
  handlers : (cycleTable mods custom).Within fun w w' => Machine.Uses A w.sys w'.sys

/-! ## 5. What is held at each exit

The set-up is followed once, with `Machine.Held`.  A step that needs memory leaves things as they
were if there is none; the step that makes the temporary pool changes the index; and the parser
gives back what it takes, by `Conf/Resources.lean`. -/

/-- Whether there is a temporary pool at an exit. -/
def InitError.staged : InitError → Bool
  | .cycle | .confCtx | .confFile | .modules | .createConf | .args | .tempPool => false
  | .param _ | .parse _ => true

/-- What module code keeps, and what recording a call keeps, the recorded handlers keep. -/
theorem Table.Within.recorded_keeps {T : Table (Configured Machine)}
    {R : Configured Machine → Configured Machine → Prop} {J : Configured Machine → Prop}
    (hT : T.Within R) (hR : ∀ w w', R w w' → J w → J w')
    (hrecord : ∀ w c, J w → J { w with sys := w.sys.record c }) : T.recorded.Keeps J where
  set m hm cmds hcmds cmd hcmd view args p w hw := by
    obtain ⟨m₀, hm₀, rfl⟩ := List.mem_map.mp hm
    obtain ⟨cmds₀, hcmds₀, rfl⟩ := Option.map_eq_some_iff.mp hcmds
    obtain ⟨cmd₀, hcmd₀, rfl⟩ := List.mem_map.mp hcmd
    exact (hT.set m₀ hm₀ cmds₀ hcmds₀ cmd₀ hcmd₀ view args p _).keeps hR (hrecord w _ hw)
  custom handler view args w hw := (hT.custom handler view args _).keeps hR (hrecord w _ hw)

theorem wmul_lt (a b : Nat) : wmul a b < wordSize := Nat.mod_lt _ (by decide)

theorem wadd_lt (a b : Nat) : wadd a b < wordSize := Nat.mod_lt _ (by decide)

/-- A part of the set-up that finds a temporary pool or not (`s`), leaves one or not (`s'`), and
keeps what is held, wherever it fails. -/
abbrev Setup.Takes (A : Alignment) (host : Host) (s s' : Bool) {α : Type} (x : Setup α) : Prop :=
  ⦃fun w => ⌜w.sys.Held A host s [] []⌝⦄ x
  ⦃post⟨fun _ w => ⌜w.sys.Held A host s' [] []⌝, fun e w => ⌜w.sys.Held A host e.staged [] []⌝⟩⦄

section
variable {A : Alignment} {host : Host}

set_option mvcgen.warning false

theorem poolCall_spec {e : InitError} {op : PoolOp} (he : e.staged = false)
    (hop : ∀ w : PoolWorld, w.Admits op) : Setup.Takes A host false false (poolCall A e op) := by
  mvcgen [poolCall]
  · rename_i w hw _ _
    rw [he]
    exact hw.call (hop _)
  · rename_i w hw _ _ _
    exact hw.call (hop _)

theorem copyPointers_spec : ∀ (p : Nat) (xs : List Nat),
    Setup.Takes A host false false (copyPointers p xs) := by
  intro p xs
  induction xs generalizing p with
  | nil => mvcgen [copyPointers]
  | cons x xs ih =>
    have hrec := ih (p + sizeofPointer)
    mvcgen [copyPointers, setSlot, hrec]

theorem cycleModules_spec (maxModule : Nat) (mods : List CycleModule) :
    Setup.Takes A host false false (cycleModules A maxModule mods) := by
  have hpool : ∀ n m, Setup.Takes A host false false (poolCall A .modules (.pcalloc (wmul n m))) :=
    fun n m => poolCall_spec rfl fun _ => wmul_lt n m
  mvcgen [cycleModules, hpool, zeroSlots, copyPointers_spec]

/-- The loop that calls `create_conf`.  The induction is on the modules. -/
theorem createConfs_spec (confCtx : Nat) : ∀ (cs : List CycleModule),
    (∀ c ∈ cs, ∀ create, c.createConf = some create →
      ∀ w : Configured Machine, Machine.Uses A w.sys (create w).2.sys) →
    Setup.Takes A host false false (createConfs confCtx cs) := by
  intro cs
  induction cs with
  | nil =>
    intro _
    mvcgen [createConfs]
  | cons c cs ih =>
    intro h
    have hrec := ih fun d hd => h d (List.mem_cons_of_mem _ hd)
    have hcreate : ∀ create, c.createConf = some create → ∀ w : Configured Machine,
        w.sys.Held A host false [] [] → (create w).2.sys.Held A host false [] [] :=
      fun create hc w hw => hw.uses (h c List.mem_cons_self create hc w)
    mvcgen [createConfs, called, setSlot, hrec]
    · rename_i create hc w hw _ _ _
      exact (hcreate create hc w hw).record _
    · rename_i create hc w hw _ _ _ _ _
      exact (hcreate create hc w hw).record _

theorem createArgs_spec : Setup.Takes A host false false (createArgs A) := by
  have hargs : Setup.Takes A host false false (poolCall A .args (.arrayCreate 10 sizeofStr)) :=
    poolCall_spec rfl fun _ => show 1 ≤ 10 ∧ 1 ≤ sizeofStr ∧ 10 * sizeofStr < wordSize by decide
  mvcgen [createArgs, hargs]
  rename_i hw _
  exact hw.rotate

theorem createTemp_spec : Setup.Takes A host false true createTemp := by
  mvcgen [createTemp]
  · rename_i w hw _ hnone
    exact hw.createFailed (Prod.ext hnone rfl)
  · rename_i w hw _ pool hsome _
    exact hw.createTemp (Prod.ext hsome rfl)

/-- A call of the parser that gives back what it takes. -/
theorem configure_spec {e : ParseError → InitError} (he : ∀ err, (e err).staged = true)
    {f : Cf (Configured Machine) → Except ParseError Unit × Cf (Configured Machine)}
    (hf : ∀ cf, cf.world.sys.Held A host true [] [] → (f cf).2.world.sys.Held A host true [] [])
    (cf : Cf (Configured Machine)) : Setup.Takes A host true true (configure e f cf) := by
  mvcgen [configure]
  · rename_i w hw _ _ _
    exact hf _ hw
  · rename_i w hw _ err _
    rw [he]
    exact hf _ hw

/-- The steps up to the parse, one after the other. -/
theorem setUp_spec {mods : List CycleModule}
    {custom : Nat → View → List Word → Configured Machine → Act (Configured Machine)}
    (hmods : ModulesUse A mods custom) (depth : Nat) (old : Cycle) :
    Setup.Takes A host false true (setUp A mods custom depth old) := by
  have hcycle : Setup.Takes A host false false (poolCall A .cycle (.pcalloc sizeofCycle)) :=
    poolCall_spec rfl fun _ => show sizeofCycle < wordSize by decide
  have hctx : ∀ n, Setup.Takes A host false false
      (poolCall A .confCtx (.pcalloc (wmul n sizeofPointer))) :=
    fun n => poolCall_spec rfl fun _ => wmul_lt _ _
  have hfile : ∀ n, Setup.Takes A host false false
      (poolCall A .confFile (.pnalloc (wadd n 1))) :=
    fun n => poolCall_spec rfl fun _ => wadd_lt _ _
  have hmodules : ∀ n, Setup.Takes A host false false (cycleModules A n mods) :=
    fun n => cycleModules_spec n mods
  have hconfs : ∀ confCtx, Setup.Takes A host false false (createConfs confCtx mods) :=
    fun confCtx => createConfs_spec confCtx mods hmods.create
  -- the handlers keep what is held, so the parser does
  have hS := Machine.disciplined A host true
  have hT : ∀ bufs fds, (cycleTable mods custom).recorded.Keeps
      fun w => w.sys.Held A host true bufs fds :=
    fun bufs fds => hmods.handlers.recorded_keeps (fun _ _ hu hw => hw.uses hu)
      fun _ c hw => hw.record c
  have hparam : ∀ param cf, Setup.Takes A host true true (configure .param
      (confParam (Machine.sys A).configured (cycleTable mods custom).recorded depth param) cf) :=
    fun param cf => configure_spec (fun _ => rfl)
      (fun _ h => confParam_keeps hS hT depth param h) cf
  have hparse : ∀ name cf, Setup.Takes A host true true (configure .parse
      (confParse (Machine.sys A).configured (cycleTable mods custom).recorded depth (some name))
      cf) :=
    fun name cf => configure_spec (fun _ => rfl)
      (fun cf h => confParse_keeps hS hT depth [] [] (some name) cf h) cf
  mvcgen [setUp, zeroSlots, hcycle, hctx, hfile, hmodules, hconfs, createArgs_spec,
    createTemp_spec, hparam, hparse]

/-- What is held when the set-up stops: the pools that there are at that exit, no buffer, and no
descriptor. -/
theorem setUp_held {mods : List CycleModule}
    {custom : Nat → View → List Word → Configured Machine → Act (Configured Machine)}
    (hmods : ModulesUse A mods custom) (depth : Nat) (old : Cycle) {w : Configured Machine}
    (hw : w.sys.Held A host false [] []) :
    match setUp A mods custom depth old w with
    | .ok _ w' => w'.sys.Held A host true [] []
    | .error e w' => w'.sys.Held A host e.staged [] [] := by
  have hspec := setUp_spec hmods depth old w hw
  cases hr : setUp A mods custom depth old w <;>
    simpa [wp, PredTrans.apply, EStateM.run, hr] using hspec

/-! ## 6. The exits

With one pool or two, destroying them gives the heap back as it was.  In the other direction, an
exit that destroys nothing leaves at least the block of the pool, so the ledger has a region
more. -/

variable {m : Machine} {staged : Bool} {fds : List Int}

/-- What `cw_destroy_pool` leaves when there is one pool. -/
theorem Machine.Held.destroyMain (h : m.Held A host false [] fds) :
    (destroyPool m.main.pool m.heap).Ok ∧
      (destroyPool m.main.pool m.heap).live.Perm host.heap.live ∧
      (destroyPool m.main.pool m.heap).got = m.heap.got := by
  obtain ⟨V, W, hm⟩ := h.owns
  have hnone : m.temp = none := by simpa using h.temp
  have hlive := hm.live
  rw [hnone] at hlive
  exact hm.main.destroy hm.heap hlive

/-- What `cw_destroy_cycle_pools` leaves when there are two. -/
theorem Machine.Held.destroyBoth (h : m.Held A host true [] fds) :
    (destroyCyclePools m).Ok ∧ (destroyCyclePools m).live.Perm host.heap.live ∧
      (destroyCyclePools m).got = m.heap.got := by
  obtain ⟨V, W, hm⟩ := h.owns
  obtain ⟨t, ht⟩ := Option.isSome_iff_exists.mp h.temp
  obtain ⟨hok, hlive, hgot⟩ := (hm.temp t ht).destroy hm.heap (hm.live_temp ht)
  obtain ⟨hok', hlive', hgot'⟩ := hm.main.destroy hok hlive
  simp only [destroyCyclePools, ht]
  exact ⟨hok', hlive', hgot'.trans hgot⟩

/-- A host is restored when as much is live as before and nothing was done wrong. -/
theorem Restored.of_live {host' : Host} (hheap : host.heap.Ok) (hkernel : host.kernel.Ok)
    (hok : host'.heap.Ok) (hlive : host'.heap.live.Perm host.heap.live)
    (hgot : host.heap.got <:+ host'.heap.got) (hover : host.kernel.Over [] host'.kernel)
    (henviron : host'.environ = host.environ) : Restored host host' := by
  obtain ⟨mine, hmine⟩ := hgot
  obtain ⟨opened, hopened⟩ := hover.got
  exact ⟨⟨mine, hmine.symm, hheap.balance hok hlive hmine.symm⟩, hok.quiet,
    ⟨opened, hopened.symm, hkernel.balance hover.ok hover.live hopened.symm⟩, hover.ok.quiet,
    henviron⟩

/-- The ledger of a restored host leaves no region over. -/
theorem Restored.live_length {host' : Host} (hr : Restored host host') (hheap : host.heap.Ok)
    (hok : host'.heap.Ok) : host'.heap.live.length = host.heap.live.length := by
  obtain ⟨mine, hgot, hfreed⟩ := hr.regions
  have h1 := hok.ledger.length_eq
  have h2 := hheap.ledger.length_eq
  have h3 := hfreed.length_eq
  rw [hgot] at h1
  simp only [List.length_append] at h1 h2 h3
  omega

/-- A machine has a block that its host had not. -/
theorem Machine.Held.live_length (h : m.Held A host staged [] fds) :
    host.heap.live.length < m.heap.live.length := by
  obtain ⟨V, W, hm⟩ := h.owns
  have hlen := hm.live.length_eq
  simp only [Holdings.chunks, Pool.spans_cons, buffers, List.map_cons, List.map_nil,
    List.length_append, List.length_cons, List.length_nil] at hlen
  omega

/-- What `OnlyPool` admits besides the host's regions is the cycle's pool. -/
theorem Machine.Owns.base_chunks {rest V W : List Region} (hm : m.Owns A rest V W) {r : Region}
    (h : (∃ b ∈ m.main.pool.blocks, r.base = b.base) ∨
      ∃ l ∈ m.main.pool.large, l.alloc = some r.base) :
    ∃ c ∈ m.main.chunks V, c.base = r.base := by
  rcases h with ⟨b, hb, hbase⟩ | ⟨l, hl, hbase⟩
  · rcases List.mem_cons.mp hb with rfl | hrest
    · exact ⟨_, List.mem_append_left _ (List.mem_map_of_mem List.mem_cons_self), hbase.symm⟩
    · have hspan := List.mem_map_of_mem (f := (·.span sizeofPoolData)) hrest
      exact ⟨_, List.mem_append_left _ (List.mem_map_of_mem (List.mem_cons_of_mem _ hspan)),
        hbase.symm⟩
  · obtain ⟨h₀, other, hinv⟩ := hm.main
    have hmem : l.alloc ∈ V.map fun r => some r.base := hinv.pool.allocs ▸ List.mem_map_of_mem hl
    rw [hbase] at hmem
    obtain ⟨c, hc, heq⟩ := List.mem_map.mp hmem
    exact ⟨c, List.mem_append_right _ hc, Option.some.inj heq⟩

/-- The temporary pool is live, and it is not the cycle's, so a machine that has one keeps more
than the cycle's pool. -/
theorem Machine.Held.not_onlyPool (h : m.Held A host true [] fds) : ¬ OnlyPool host m := by
  obtain ⟨V, W, hm⟩ := h.owns
  obtain ⟨t, ht⟩ := Option.isSome_iff_exists.mp h.temp
  have hlive := hm.live_temp ht
  obtain ⟨-, -, hapart⟩ := List.pairwise_append.mp (hlive.pairwise_apart.mp hm.heap.apart)
  -- the first block of the temporary pool
  have hr : (t.pool.head.span sizeofPool).whole ∈ t.chunks W :=
    List.mem_append_left _ (List.mem_map_of_mem List.mem_cons_self)
  have hmem := hlive.mem_iff.mpr (List.mem_append_left _ hr)
  intro honly
  have hother : ∃ c ∈ m.main.chunks V ++ (buffers [] ++ host.heap.live),
      c.base = (t.pool.head.span sizeofPool).whole.base := by
    rcases honly _ hmem with hhost | hpool
    · exact ⟨_, List.mem_append_right _ (List.mem_append_right _ hhost), rfl⟩
    · obtain ⟨c, hc, hbase⟩ := hm.base_chunks hpool
      exact ⟨c, List.mem_append_left _ hc, hbase⟩
  obtain ⟨c, hc, hbase⟩ := hother
  obtain rfl := hm.heap.base_inj (hlive.mem_iff.mpr (List.mem_append_right _ hc)) hmem hbase
  -- a region is not apart from itself
  have hself := hapart _ hr _ hc
  have hpos := hm.heap.pos _ hmem
  unfold Region.Apart Region.stop at hself
  omega

/-! ## 7. When it is all or nothing -/

/-- The first pool is what a machine starts with. -/
theorem Machine.Held.start {w : Configured Host} (hheap : w.sys.heap.Ok) (hkernel : w.sys.kernel.Ok)
    {pool : Pool} {heap : Heap} (hc : createPool cyclePoolSize w.sys.heap = (some pool, heap)) :
    (w.withPool pool heap).sys.Held A w.sys false [] [] := by
  obtain ⟨hsound, hok, hlive⟩ := Holdings.Sound.create hheap hc
  have hgot := got_createPool cyclePoolSize w.sys.heap
  rw [hc] at hgot
  exact ⟨⟨[], [], hok, hsound, by rintro _ ⟨⟩, hlive⟩, hgot, ⟨hkernel, rfl, List.suffix_rfl⟩, rfl,
    rfl⟩

/-- What an exit leaves is the host as it was, just when the exit is complete.  Each exit has its
own reason; the error says which. -/
theorem restored_leave_iff {e : InitError} (hheap : host.heap.Ok) (hkernel : host.kernel.Ok)
    (h : m.Held A host e.staged [] []) :
    Restored host (e.leave m) ↔ (InitStep.setUp e).Complete host.environ := by
  -- the exits that destroy the cycle's pool when it is the only one
  have hmain : m.Held A host false [] [] →
      Restored host { m.toHost with heap := destroyPool m.main.pool m.heap } := by
    intro hm
    obtain ⟨hok, hlive, hgot⟩ := hm.destroyMain
    exact .of_live hheap hkernel hok hlive (hgot ▸ hm.got) hm.kernel hm.environ
  have hboth : m.Held A host true [] [] →
      (Restored host { m.toHost with environ := 0, heap := destroyCyclePools m } ↔
        host.environ = 0) := by
    intro hm
    obtain ⟨hok, hlive, hgot⟩ := hm.destroyBoth
    constructor
    · exact fun hr => hr.environ.symm
    · exact fun h0 => .of_live hheap hkernel hok hlive (hgot ▸ hm.got) hm.kernel h0.symm
  cases e with
  | cycle => exact iff_of_true (hmain h) trivial
  | confCtx => exact iff_of_true (hmain h) trivial
  | confFile => exact iff_of_true (hmain h) trivial
  | modules =>
    refine iff_of_false (fun hr => ?_) id
    obtain ⟨V, W, hm⟩ := h.owns
    have hlen := hr.live_length hheap hm.heap
    have hlt := h.live_length
    exact absurd hlen (Nat.ne_of_gt hlt)
  | createConf => exact iff_of_true (hmain h) trivial
  | args => exact iff_of_true (hmain h) trivial
  | tempPool => exact iff_of_true (hmain h) trivial
  | param err => exact hboth h
  | parse err => exact hboth h

theorem allOrNothing_failed {w : Configured Host} :
    AllOrNothing host (.failed w) ↔ Restored host w.sys := by
  constructor
  · exact fun h => h.failed w rfl
  · exact fun h => ⟨fun _ hw => InitResult.failed.inj hw ▸ h, fun _ _ hw => by cases hw⟩

theorem allOrNothing_returned {cycle : Cycle} {w : Configured Machine} :
    AllOrNothing host (.returned cycle w) ↔ OnlyPool host w.sys := by
  constructor
  · exact fun h => h.returned cycle w rfl
  · exact fun h => ⟨fun _ hw => (by cases hw), fun _ _ hw => (InitResult.returned.inj hw).2 ▸ h⟩

/-- **`cw_init_cycle` is all or nothing just when a step fails whose exit is complete.**  For every
old cycle, every module list whose code only uses the pools and the listening sockets, every
content of the configuration file and every pattern of answers of the heap and of the kernel. -/
theorem initCycle_allOrNothing_iff (A : Alignment) {mods : List CycleModule}
    {custom : Nat → View → List Word → Configured Machine → Act (Configured Machine)}
    (hmods : ModulesUse A mods custom) (depth : Nat) (old : Cycle) {w : Configured Host}
    (hheap : w.sys.heap.Ok) (hkernel : w.sys.kernel.Ok) :
    AllOrNothing w.sys (initCycle A mods custom depth old w) ↔
      ∃ s, firstFailure A mods custom depth old w = some s ∧ s.Complete w.sys.environ := by
  unfold initCycle firstFailure initSteps
  cases hc : createPool cyclePoolSize w.sys.heap with
  | mk ans heap =>
    cases ans with
    | none =>
      obtain rfl := createPool_none hc
      refine iff_of_true (allOrNothing_failed.mpr ?_) ⟨_, rfl, trivial⟩
      exact .of_live hheap hkernel hheap.use (List.Perm.refl _) List.suffix_rfl
        ⟨hkernel, rfl, List.suffix_rfl⟩ rfl
    | some pool =>
      have hheld := setUp_held hmods depth old (Machine.Held.start hheap hkernel hc)
      simp only
      cases hs : setUp A mods custom depth old (w.withPool pool heap) with
      | error e w' =>
        rw [hs] at hheld
        simp only [InitOutcome.failure, Option.some.injEq, exists_eq_left']
        exact allOrNothing_failed.trans (restored_leave_iff hheap hkernel hheld)
      | ok cycle w' =>
        rw [hs] at hheld
        simp only
        cases hl : openListeningSockets w'.sys.listening w'.sys.kernel with
        | mk ok rest =>
          obtain ⟨ls, k⟩ := rest
          cases ok with
          | true =>
            refine iff_of_false (fun hr => ?_) (by simp [InitOutcome.failure])
            simp only [if_true] at hr
            have honly := allOrNothing_returned.mp hr
            exact hheld.not_onlyPool honly
          | false =>
            refine iff_of_false (fun hr => ?_) (by simp [InitOutcome.failure, InitStep.Complete])
            simp only [Bool.false_eq_true, if_false] at hr
            obtain ⟨V, W, hm⟩ := hheld.owns
            have hlen := (allOrNothing_failed.mp hr).live_length hheap hm.heap
            exact absurd hlen (Nat.ne_of_gt hheld.live_length)

end

/-- The modules of the program use their pool only. -/
theorem cwModules_use (A : Alignment) (ncpu : Int) : ModulesUse A (cwModules A ncpu) noCustom where
  create c hc create hcreate w := by
    obtain rfl := List.mem_singleton.mp hc
    obtain rfl := Option.some.inj hcreate
    have hfirst : Machine.Uses A w.sys (w.sys.call A (.pcalloc sizeofCoreConf)).2 :=
      (Machine.Uses.refl _).main (show sizeofCoreConf < wordSize by decide) fun _ => by simp
    unfold coreCreateConf
    split <;> rename_i hcall <;> rw [hcall] at hfirst
    · exact hfirst
    · exact hfirst.main (wmul_lt 1 sizeofStr) fun _ => by simp
  handlers :=
    { set := by
        intro m hm cmds hcmds cmd hcmd view args p w
        obtain rfl := List.mem_singleton.mp hm
        obtain rfl := Option.some.inj hcmds
        obtain rfl := List.mem_singleton.mp hcmd
        simp only [setWorkerProcesses]
        split
        · exact .refl _
        · split
          · exact .refl _
          · split <;> exact .refl _
      custom := fun _ _ _ _ => .refl _ }

/-- A host on which the first `n` requests for memory succeed, with nothing to read. -/
def sampleHost (n : Nat) : Configured Host where
  sys :=
    { heap := Heap.fresh fun i => if i < n then some (2 ^ 20 * (i + 1)) else none
      kernel := { live := [], got := [], closed := [], faults := [], calls := 0
                  answers := fun _ => ⟨3, true, false, 0, some []⟩ }
      environ := 0x7000
      calls := [] }
  slots := fun _ => 0
  core := fun _ => .fresh 0

/-- A host on which memory is there, and every file has the content `text`. -/
def fileHost (text : List UInt8) : Configured Host where
  sys :=
    { heap := Heap.fresh fun i => some (2 ^ 20 * (i + 1))
      kernel := { live := [], got := [], closed := [], faults := [], calls := 0
                  answers := fun _ => ⟨3, true, false, text.length, some text⟩ }
      environ := 0x7000
      calls := [] }
  slots := fun _ => 0
  core := fun _ => .fresh 0

/-- The file `worker_processes N;`, with a digit `N`. -/
def workersFile (digit : UInt8) : List UInt8 :=
  workerProcessesText ++ [Ch.space, digit, Ch.semicolon]

/-- `init_cycle`, with the configuration file `f`. -/
def sampleCycle : Cycle :=
  { confCtx := 0, modules := 0, confFile := ⟨1, [102, 0]⟩, confParam := [] }

theorem sampleHost_ok (n : Nat) : (sampleHost n).sys.heap.Ok ∧ (sampleHost n).sys.kernel.Ok :=
  ⟨Heap.fresh_ok _, List.Perm.refl _, rfl⟩

theorem fileHost_ok (text : List UInt8) :
    (fileHost text).sys.heap.Ok ∧ (fileHost text).sys.kernel.Ok :=
  ⟨Heap.fresh_ok _, List.Perm.refl _, rfl⟩

/-- When the temporary pool cannot be made, what was made before is destroyed. -/
theorem initCycle_allOrNothing_sample :
    AllOrNothing (sampleHost 3).sys
      (initCycle .word (cwModules .word 4) noCustom 2 sampleCycle (sampleHost 3)) :=
  have hstep : firstFailure .word (cwModules .word 4) noCustom 2 sampleCycle (sampleHost 3)
      = some (.setUp .tempPool) := by decide +kernel
  (initCycle_allOrNothing_iff .word (cwModules_use .word 4) 2 sampleCycle (sampleHost_ok 3).1
    (sampleHost_ok 3).2).mpr ⟨_, hstep, trivial⟩

/-- When `cw_cycle_modules` fails, the pool and its one large allocation stay. -/
theorem initCycle_leaks :
    ¬ AllOrNothing (sampleHost 2).sys
      (initCycle .word (cwModules .word 4) noCustom 2 sampleCycle (sampleHost 2)) := by
  have hrun : (match initCycle .word (cwModules .word 4) noCustom 2 sampleCycle (sampleHost 2) with
      | .failed w => (w.sys.heap.got.length, w.sys.heap.freed.length)
      | .returned _ _ => (0, 0)) = (2, 0) := by decide +kernel
  cases hr : initCycle .word (cwModules .word 4) noCustom 2 sampleCycle (sampleHost 2) with
  | returned cycle w =>
    rw [hr] at hrun
    cases hrun
  | failed w =>
    rw [hr] at hrun
    obtain ⟨hgot, hfreed⟩ := Prod.mk.inj hrun
    intro hall
    obtain ⟨⟨mine, hmine, hperm⟩, -⟩ := hall.failed w rfl
    have hlen := hperm.length_eq
    rw [hmine] at hgot
    simp only [List.length_append] at hgot hlen
    have hnone : (sampleHost 2).sys.heap.got.length = 0 := rfl
    omega

end Capwap
