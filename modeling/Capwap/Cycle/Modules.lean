/-
# The modules of a cycle

`cw_preinit_modules` numbers the modules of `cw_modules` and gives them their names, and
`cw_cycle_modules` copies the array into the cycle.  `ModuleTable` is the array as `auto/modules`
writes it: distinct modules before a `NULL`, with a name for each.

`setUpFrom` is `cw_init_cycle` from the allocation of `conf_ctx` on.  Whatever its steps are shown
to do, `setUpFrom_leads` puts together: an assertion that holds up to the loop that calls
`create_conf`, one that holds up to the parse, and one that the parser upholds.
-/
import Capwap.Cycle.Init

namespace Capwap

open Std.Do

/-! ## 1. `cw_preinit_modules`

The array of the modules is a generated file, so its contents are a variable here; what is known of
it is what the generator guarantees.  The loop numbers the modules from 0, in order, and copies the
names. -/

/-- `cw_modules` and `cw_module_names`: distinct modules, with a name for each.  There is room for
the modules, the dynamic ones and a `NULL` in the address space. -/
structure ModuleTable where
  modules : List CycleModule
  names : List String
  distinct : (modules.map CycleModule.self).Nodup
  terminated : ∀ c ∈ modules, c.self ≠ 0
  named : names.length = modules.length
  fits : (modules.length + maxDynamicModules + 1) * sizeofPointer < wordSize

namespace ModuleTable

/-- `cw_preinit_modules`. -/
def preinit (L : ModuleTable) : List CycleModule :=
  L.modules.mapIdx fun i c => { c with name := L.names.getD i "", module.index := i }

variable (L : ModuleTable)

@[simp] theorem preinit_length : L.preinit.length = L.modules.length := List.length_mapIdx

/-- A module keeps everything but its name and its index. -/
theorem preinit_get {i : Nat} {c : CycleModule} (h : L.preinit[i]? = some c) :
    ∃ c₀, L.modules[i]? = some c₀ ∧
      c = { c₀ with name := L.names.getD i "", module.index := i } := by
  unfold preinit at h
  rw [List.getElem?_mapIdx] at h
  obtain ⟨c₀, hc₀, rfl⟩ := Option.map_eq_some_iff.mp h
  exact ⟨c₀, hc₀, rfl⟩

/-- What a module becomes. -/
theorem preinit_mem {i : Nat} {c : CycleModule} (h : L.modules[i]? = some c) :
    { c with name := L.names.getD i "", module.index := i } ∈ L.preinit := by
  refine List.mem_of_getElem? (i := i) ?_
  unfold preinit
  rw [List.getElem?_mapIdx, h]
  rfl

/-- The index is the position. -/
theorem preinit_index {i : Nat} {c : CycleModule} (h : L.preinit[i]? = some c) :
    c.module.index = i := by
  obtain ⟨c₀, -, rfl⟩ := L.preinit_get h
  rfl

theorem preinit_self : L.preinit.map CycleModule.self = L.modules.map CycleModule.self := by
  refine List.ext_getElem? fun i => ?_
  unfold preinit
  rw [List.getElem?_map, List.getElem?_mapIdx, List.getElem?_map, Option.map_map]
  rfl

/-- `cw_max_module` is not wrapped around. -/
theorem maxModule_eq : wadd L.modules.length maxDynamicModules
    = L.modules.length + maxDynamicModules := by
  have hfits := L.fits
  unfold sizeofPointer at hfits
  exact Nat.mod_eq_of_lt (by omega)

end ModuleTable

/-- The modules of the program. -/
def cwModuleTable (A : Alignment) (ncpu : Int) : ModuleTable where
  modules := cwModules A ncpu
  names := ["cw_core_module"]
  distinct := List.nodup_singleton _
  terminated := by
    intro c hc
    obtain rfl := List.mem_singleton.mp hc
    exact (by decide : 0x6000 ≠ 0)
  named := rfl
  fits := by
    show (1 + maxDynamicModules + 1) * sizeofPointer < wordSize
    decide

@[simp] theorem cwModuleTable_preinit (A : Alignment) (ncpu : Int) :
    (cwModuleTable A ncpu).preinit = cwModules A ncpu := rfl

/-- The texts `pid` and `user`. -/
def pidText : List UInt8 := [112, 105, 100]

def userText : List UInt8 := [117, 115, 101, 114]

/-- A core module for samples, with a direct command and one that is given the slot.  Its
configuration is static, and it has no `init_conf`. -/
def sampleModule : CycleModule where
  self := 0x6100
  name := "sample_module"
  module :=
    { type := coreModule, index := 0, ctxIndex := 2 ^ 64 - 1
      commands := some
        [{ name := pidText
           type := mainConf ||| directConf ||| confTake1
           conf := 0
           set := fun view _ _ w => .ret .ok view w },
         { name := userText
           type := mainConf ||| confTake1
           conf := 0
           set := fun view _ _ w => .ret .ok view w }] }
  createConf := some fun w => (some 0x7100, w)
  initConf := none

/-! ## 2. The set-up from `conf_ctx` on

What the modules see begins with `conf_ctx`, and the two allocations before it only concern the
pool.  Theorems about slots and about the history of calls are about the part from there on.  They
differ in their assertions, so the sequence of the steps is gone through once, for any. -/

section
variable (A : Alignment) (mods : List CycleModule)
variable (custom : Nat → View → List Word → Configured Machine → Act (Configured Machine))
variable (depth : Nat) (old : Cycle)

/-- `sizeof` the array `conf_ctx`. -/
def confCtxSize (mods : List CycleModule) : Nat :=
  wmul (wadd mods.length maxDynamicModules) sizeofPointer

/-- The allocations of the cycle and of `conf_ctx`. -/
def allocConfCtx : Setup Nat := do
  let _ ← poolCall A .cycle (.pcalloc sizeofCycle)
  poolCall A .confCtx (.pcalloc (confCtxSize mods))

/-- What the handlers of a cycle see first. -/
def mainView (confCtx : Nat) : View :=
  { ctx := confCtx, moduleType := coreModule, cmdType := mainConf, handler := 0 }

/-- The rest of the set-up. -/
def setUpFrom (confCtx : Nat) : Setup Cycle := do
  zeroSlots confCtx (confCtxSize mods)
  let size := wadd old.confFile.len 1
  let _ ← poolCall A .confFile (.pnalloc size)
  let confFile : Word := ⟨old.confFile.len, cpystrn old.confFile.data size⟩
  let modules ← cycleModules A (wadd mods.length maxDynamicModules) mods
  createConfs confCtx mods
  createArgs A
  createTemp
  let cycle : Cycle := ⟨confCtx, modules, confFile, []⟩
  let sys := (Machine.sys A).configured
  let table := (cycleTable mods custom).recorded
  let cf ← configure .param (confParam sys table depth cycle.confParam)
    { args := [], conf := none, view := mainView confCtx, world := ← get }
  let _ ← configure .parse (confParse sys table depth (some (cStr cycle.confFile.data))) cf
  return cycle

theorem setUp_eq : setUp A mods custom depth old
    = allocConfCtx A mods >>= setUpFrom A mods custom depth old := by
  unfold allocConfCtx
  rw [bind_assoc]
  rfl

end

/-- A part of the set-up leads from `P` to `Q`, or fails in `X`.  The assertion `X` is what is left
to say when a step has failed. -/
abbrev Setup.Leads {α : Type} (P : Configured Machine → Prop) (x : Setup α)
    (Q : α → Configured Machine → Prop) (X : Configured Machine → Prop) : Prop :=
  ⦃fun w => ⌜P w⌝⦄ x ⦃post⟨fun a w => ⌜Q a w⌝, fun _ w => ⌜X w⌝⟩⦄

section
variable {A : Alignment} {mods : List CycleModule}
variable {custom : Nat → View → List Word → Configured Machine → Act (Configured Machine)}
variable {P P₀ P' : Configured Machine → Prop} {X : Configured Machine → Prop}
variable {K : View → Configured Machine → Prop}

set_option mvcgen.warning false

/-- A run of a part of the set-up ends in `Q`, or with an error in `X`. -/
structure Setup.Ends {α : Type} (Q : α → Configured Machine → Prop)
    (X : Configured Machine → Prop)
    (r : EStateM.Result InitError (Configured Machine) α) : Prop where
  ok : ∀ a w, r = .ok a w → Q a w
  error : ∀ e w, r = .error e w → X w

theorem Setup.Leads.run {α : Type} {x : Setup α} {Q : α → Configured Machine → Prop}
    (h : Setup.Leads P x Q X) {w : Configured Machine} (hw : P w) : Setup.Ends Q X (x w) := by
  have hspec := h w hw
  constructor
  · intro a w' hr
    simpa [wp, PredTrans.apply, EStateM.run, hr] using hspec
  · intro e w' hr
    simpa [wp, PredTrans.apply, EStateM.run, hr] using hspec

/-- A call of the parser that upholds `K`. -/
theorem configure_leads {e : ParseError → InitError}
    {f : Cf (Configured Machine) → Except ParseError Unit × Cf (Configured Machine)}
    (hf : ∀ cf, K cf.view cf.world → K (f cf).2.view (f cf).2.world)
    (hX : ∀ view w, K view w → X w) (cf : Cf (Configured Machine)) :
    Setup.Leads (K cf.view) (configure e f cf) (fun cf' w => K cf'.view w) X := by
  mvcgen [configure]
  · rename_i w hw _ _ _
    exact hf { cf with world := w } hw
  · rename_i w hw _ _ _
    exact hX _ _ (hf { cf with world := w } hw)

/-- A call on the cycle's pool changes the heap and the pool only. -/
theorem poolCall_frame (J : List ModuleCall → (Nat → Nat) → Prop)
    (hX : ∀ w : Configured Machine, J w.sys.calls w.slots → X w) (e : InitError) (op : PoolOp) :
    Setup.Leads (fun w => J w.sys.calls w.slots) (poolCall A e op)
      (fun _ w => J w.sys.calls w.slots) X := by
  mvcgen [poolCall]
  · rename_i w hw _ _
    exact hX _ hw

theorem createArgs_frame (J : List ModuleCall → (Nat → Nat) → Prop)
    (hX : ∀ w : Configured Machine, J w.sys.calls w.slots → X w) :
    Setup.Leads (fun w => J w.sys.calls w.slots) (createArgs A)
      (fun _ w => J w.sys.calls w.slots) X := by
  have hpool := poolCall_frame (A := A) J hX
  mvcgen [createArgs, hpool]

theorem createTemp_frame (J : List ModuleCall → (Nat → Nat) → Prop)
    (hX : ∀ w : Configured Machine, J w.sys.calls w.slots → X w) :
    Setup.Leads (fun w => J w.sys.calls w.slots) createTemp
      (fun _ w => J w.sys.calls w.slots) X := by
  mvcgen [createTemp]
  · rename_i w hw _ _
    exact hX _ hw

theorem allocConfCtx_frame (A : Alignment) (mods : List CycleModule)
    (J : List ModuleCall → (Nat → Nat) → Prop)
    (hX : ∀ w : Configured Machine, J w.sys.calls w.slots → X w) :
    Setup.Leads (fun w => J w.sys.calls w.slots) (allocConfCtx A mods)
      (fun _ w => J w.sys.calls w.slots) X := by
  have hpool := poolCall_frame (A := A) J hX
  mvcgen [allocConfCtx, hpool]

theorem copyPointers_calls (J : List ModuleCall → Prop) : ∀ (xs : List Nat) (p : Nat),
    Setup.Leads (fun w => J w.sys.calls) (copyPointers p xs) (fun _ w => J w.sys.calls) X := by
  intro xs
  induction xs with
  | nil =>
    intro p
    mvcgen [copyPointers]
  | cons x xs ih =>
    intro p
    have hrec := ih (p + sizeofPointer)
    mvcgen [copyPointers, setSlot, hrec]

theorem cycleModules_calls (J : List ModuleCall → Prop)
    (hX : ∀ w : Configured Machine, J w.sys.calls → X w) (maxModule : Nat) :
    Setup.Leads (fun w => J w.sys.calls) (cycleModules A maxModule mods)
      (fun _ w => J w.sys.calls) X := by
  have hpool := poolCall_frame (A := A) (fun calls _ => J calls) hX
  have hcopy := copyPointers_calls (X := X) J
  mvcgen [cycleModules, hpool, zeroSlots, hcopy]

/-- The set-up from `conf_ctx` on.  `P₀` holds before `conf_ctx` is cleared, `P` up to the loop
that calls `create_conf`, `P'` up to the parse, and the parser upholds `K`.  Each hypothesis is
about one step. -/
theorem setUpFrom_leads (depth : Nat) (old : Cycle) {confCtx : Nat}
    (hzero : ∀ w, P₀ w → P { w with slots := fun a =>
      if confCtx ≤ a ∧ a < confCtx + confCtxSize mods then 0 else w.slots a })
    (hfile : ∀ n, Setup.Leads P (poolCall A .confFile (.pnalloc (wadd n 1))) (fun _ => P) X)
    (hmodules : Setup.Leads P (cycleModules A (wadd mods.length maxDynamicModules) mods)
      (fun _ => P) X)
    (hconfs : Setup.Leads P (createConfs confCtx mods) (fun _ => P') X)
    (hargs : Setup.Leads P' (createArgs A) (fun _ => P') X)
    (htemp : Setup.Leads P' createTemp (fun _ => P') X)
    (hmain : ∀ w, P' w → K (mainView confCtx) w) (hX : ∀ view w, K view w → X w)
    (hS : ∀ view, (Machine.sys A).configured.Disciplined fun _ _ => K view)
    (hT : (cycleTable mods custom).recorded.Upholds (Machine.sys A).configured K) :
    Setup.Leads P₀ (setUpFrom A mods custom depth old confCtx)
      (fun cycle w => cycle.confCtx = confCtx ∧ ∃ view, K view w) X := by
  have hparam : ∀ param cf, Setup.Leads (K cf.view) (configure .param
      (confParam (Machine.sys A).configured (cycleTable mods custom).recorded depth param) cf)
      (fun cf' w => K cf'.view w) X :=
    fun param cf => configure_leads (fun cf h =>
      confParam_upholds hS (fun _ _ => hT) depth [] [] param h) hX cf
  have hparse : ∀ name cf, Setup.Leads (K cf.view) (configure .parse
      (confParse (Machine.sys A).configured (cycleTable mods custom).recorded depth (some name)) cf)
      (fun cf' w => K cf'.view w) X :=
    fun name cf => configure_leads (fun cf h =>
      confParse_upholds hS (fun _ _ => hT) depth [] [] (some name) cf h) hX cf
  mvcgen [setUpFrom, zeroSlots, hfile, hmodules, hconfs, hargs, htemp, hparam, hparse]
  · rename_i w hw _ _
    exact hzero w hw
  · rename_i w hw
    exact hmain w hw
  · rename_i w hw
    exact ⟨rfl, _, hw⟩

/-- The loop that calls `create_conf`, for an assertion `I` indexed by the modules to come.  The
induction is on these. -/
theorem createConfs_leads {I : List CycleModule → Configured Machine → Prop} {confCtx : Nat}
    (hskip : ∀ c cs w, c ∈ mods → c.module.type ≠ coreModule ∨ c.createConf = none →
      I (c :: cs) w → I cs w)
    (hnull : ∀ c cs create w, c ∈ mods → c.createConf = some create → I (c :: cs) w →
      (create w).1 = none →
        X { (create w).2 with sys := (create w).2.sys.record (.createConf c.module.index none) })
    (hhook : ∀ c cs create w rv, c ∈ mods → c.module.type = coreModule →
      c.createConf = some create → I (c :: cs) w → (create w).1 = some rv →
        I cs { (create w).2 with
          sys := (create w).2.sys.record (.createConf c.module.index (some rv))
          slots := fun a => if a = confCtx + sizeofPointer * c.module.index then rv
            else (create w).2.slots a }) :
    ∀ (cs : List CycleModule), (∀ c ∈ cs, c ∈ mods) →
      Setup.Leads (I cs) (createConfs confCtx cs) (fun _ => I []) X := by
  intro cs
  induction cs with
  | nil =>
    intro _
    mvcgen [createConfs]
  | cons c cs ih =>
    intro hmem
    have hrec := ih fun d hd => hmem d (List.mem_cons_of_mem _ hd)
    have hc := hmem c List.mem_cons_self
    mvcgen [createConfs, called, setSlot, hrec]
    · rename_i htype hnone w hw
      exact hskip c cs w hc (Or.inr hnone) hw
    · rename_i create hcreate w hw _ _ hnone
      have hX := hnull c cs create w hc hcreate hw hnone
      rw [← hnone] at hX
      exact hX
    · rename_i htype create hcreate w hw _ _ rv hsome _
      have hI := hhook c cs create w rv hc htype hcreate hw hsome
      rw [← hsome] at hI
      exact hI
    · rename_i htype w hw
      exact hskip c cs w hc (Or.inl htype) hw

/-- What the calls of the parser on the system leave alone. -/
theorem frame_disciplined (A : Alignment) (J : List ModuleCall → (Nat → Nat) → Prop) :
    (Machine.sys A).configured.Disciplined fun _ _ w => J w.sys.calls w.slots where
  keeps _ _ :=
    { clearArgs := fun _ h => h
      arrayPush := fun _ h => h
      pnalloc := fun _ _ h => h
      pread := fun _ _ _ _ h => h }
  openFailed _ _ _ _ h _ := h
  openFile _ _ _ _ h _ := h
  fdInfo _ _ _ _ h := h
  allocFailed _ _ w w' h hc := by
    obtain ⟨-, rfl⟩ := Prod.mk.inj hc
    exact h
  alloc _ _ w w' p h hc := by
    obtain ⟨-, rfl⟩ := Prod.mk.inj hc
    exact h
  free _ _ _ _ h := h
  closeFile _ _ _ _ h := h

/-- The recorded handlers uphold `K` when each does once its call is recorded. -/
theorem Table.recorded_upholds {S : Sys (Configured Machine)} {T : Table (Configured Machine)}
    (hset : ∀ m ∈ T.modules, ∀ cmds, m.commands = some cmds → ∀ cmd ∈ cmds, ∀ view args w,
      K view w → cmd.type &&& view.cmdType ≠ 0 →
        (cmd.set view args (confPointer S view m cmd w)
          { w with
            sys := w.sys.record
              (.set m.index cmd.type view (confPointer S view m cmd w)) }).Upholds K)
    (hcustom : ∀ handler view args w, K view w →
      (T.custom handler view args { w with sys := w.sys.record (.custom handler) }).Upholds K) :
    T.recorded.Upholds S K where
  set m hm cmds hcmds cmd hcmd view args w hw hallowed := by
    obtain ⟨m₀, hm₀, rfl⟩ := List.mem_map.mp hm
    obtain ⟨cmds₀, hcmds₀, rfl⟩ := Option.map_eq_some_iff.mp hcmds
    obtain ⟨cmd₀, hcmd₀, rfl⟩ := List.mem_map.mp hcmd
    exact hset m₀ hm₀ cmds₀ hcmds₀ cmd₀ hcmd₀ view args w hw hallowed
  custom handler view args w hw := hcustom handler view args w hw

end

/-! ## 3. A whole call -/

/-- The address of `conf_ctx` in a call. -/
def confCtxAt (A : Alignment) (mods : List CycleModule) (w₀ : Configured Host) : Option Nat :=
  match createPool cyclePoolSize w₀.sys.heap with
  | (none, _) => none
  | (some pool, heap) =>
    match allocConfCtx A mods (w₀.withPool pool heap) with
    | .error _ _ => none
    | .ok confCtx _ => some confCtx

/-- The calls into modules up to the end of a call. -/
def InitResult.calls : InitResult → List ModuleCall
  | .failed w => w.sys.calls
  | .returned _ w => w.sys.calls

section
variable {A : Alignment} {mods : List CycleModule}
variable {custom : Nat → View → List Word → Configured Machine → Act (Configured Machine)}
variable {depth : Nat} {old : Cycle} {w₀ : Configured Host}

/-- How a call goes: it fails before there is a `conf_ctx`, or the rest of the set-up fails, or the
listening sockets decide.  In each case the machine at that point is named, so that what holds
there can be said. -/
inductive InitRun (A : Alignment) (mods : List CycleModule)
    (custom : Nat → View → List Word → Configured Machine → Act (Configured Machine))
    (depth : Nat) (old : Cycle) (w₀ : Configured Host) : InitResult → Prop
  | early {w : Configured Host} (hnone : confCtxAt A mods w₀ = none)
      (hcalls : w.sys.calls = w₀.sys.calls) : InitRun A mods custom depth old w₀ (.failed w)
  | stopped {pool : Pool} {heap : Heap} {confCtx : Nat} {w₁ w₂ : Configured Machine} {e : InitError}
      {w : Configured Host} (hsome : confCtxAt A mods w₀ = some confCtx)
      (hpool : createPool cyclePoolSize w₀.sys.heap = (some pool, heap))
      (halloc : allocConfCtx A mods (w₀.withPool pool heap) = .ok confCtx w₁)
      (hrest : setUpFrom A mods custom depth old confCtx w₁ = .error e w₂)
      (hcalls : w.sys.calls = w₂.sys.calls) : InitRun A mods custom depth old w₀ (.failed w)
  | closed {pool : Pool} {heap : Heap} {confCtx : Nat} {w₁ w₂ : Configured Machine} {cycle : Cycle}
      {w : Configured Host} (hsome : confCtxAt A mods w₀ = some confCtx)
      (hpool : createPool cyclePoolSize w₀.sys.heap = (some pool, heap))
      (halloc : allocConfCtx A mods (w₀.withPool pool heap) = .ok confCtx w₁)
      (hrest : setUpFrom A mods custom depth old confCtx w₁ = .ok cycle w₂)
      (hcalls : w.sys.calls = w₂.sys.calls) : InitRun A mods custom depth old w₀ (.failed w)
  | done {pool : Pool} {heap : Heap} {confCtx : Nat} {w₁ w₂ w : Configured Machine} {cycle : Cycle}
      (hsome : confCtxAt A mods w₀ = some confCtx)
      (hpool : createPool cyclePoolSize w₀.sys.heap = (some pool, heap))
      (halloc : allocConfCtx A mods (w₀.withPool pool heap) = .ok confCtx w₁)
      (hrest : setUpFrom A mods custom depth old confCtx w₁ = .ok cycle w₂)
      (hcalls : w.sys.calls = w₂.sys.calls) (hslots : w.slots = w₂.slots) :
      InitRun A mods custom depth old w₀ (.returned cycle w)

theorem InitError.leave_calls (e : InitError) (m : Machine) : (e.leave m).calls = m.calls := by
  cases e <;> rfl

/-- Every call goes one of these ways. -/
theorem initCycle_run (A : Alignment) (mods : List CycleModule)
    (custom : Nat → View → List Word → Configured Machine → Act (Configured Machine))
    (depth : Nat) (old : Cycle) (w₀ : Configured Host) :
    InitRun A mods custom depth old w₀ (initCycle A mods custom depth old w₀) := by
  unfold initCycle initSteps
  cases hc : createPool cyclePoolSize w₀.sys.heap with
  | mk ans heap =>
    cases ans with
    | none => exact .early (by simp only [confCtxAt, hc]) rfl
    | some pool =>
      simp only [setUp_eq]
      cases ha : allocConfCtx A mods (w₀.withPool pool heap) with
      | error e w₁ =>
        have hframe := (allocConfCtx_frame A mods (fun calls _ => calls = w₀.sys.calls)
          (X := fun w => w.sys.calls = w₀.sys.calls) fun _ h => h).run
            (w := w₀.withPool pool heap) rfl
        have hbind : (allocConfCtx A mods >>= setUpFrom A mods custom depth old)
            (w₀.withPool pool heap) = .error e w₁ := by
          simp only [bind, EStateM.bind, ha]
        rw [hbind]
        refine .early (by simp only [confCtxAt, hc, ha]) ?_
        exact (e.leave_calls w₁.sys).trans (hframe.error e w₁ ha)
      | ok confCtx w₁ =>
        have hsome : confCtxAt A mods w₀ = some confCtx := by simp only [confCtxAt, hc, ha]
        have hbind : (allocConfCtx A mods >>= setUpFrom A mods custom depth old)
            (w₀.withPool pool heap) = setUpFrom A mods custom depth old confCtx w₁ := by
          simp only [bind, EStateM.bind, ha]
        rw [hbind]
        cases hr : setUpFrom A mods custom depth old confCtx w₁ with
        | error e w₂ => exact .stopped hsome hc ha hr (e.leave_calls w₂.sys)
        | ok cycle w₂ =>
          simp only
          split
          · exact .done hsome hc ha hr rfl rfl
          · exact .closed hsome hc ha hr rfl

end

end Capwap
