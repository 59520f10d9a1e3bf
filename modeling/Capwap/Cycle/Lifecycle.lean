/-
# The configurations of the core modules

A core module may have two hooks: `create_conf` makes its configuration before any directive is
handled, and `init_conf` is meant to fill in the defaults once all of them have been.
`Lifecycle` is this law over the history of a call of `cw_init_cycle`.

The first half holds in every call that returns a cycle (`initCycle_created`).  The second does not:
the function that calls `create_conf` has no loop that calls `init_conf`, so the law holds just when
no core module has the hook (`lifecycle_iff`); the one module of the program has it
(`coreModule_notInited`).
-/
import Capwap.Cycle.Modules

namespace Capwap

/-! ## 1. The law

A history of calls into modules is kept by the machine, the last call first, and no function of the
model reads it.  The law is about the part that a call of `cw_init_cycle` adds: what it looks like
from its end. -/

/-- A call into a module that a directive led to. -/
def ModuleCall.OfDirective : ModuleCall → Prop
  | .createConf _ _ | .initConf _ _ => False
  | .set _ _ _ _ | .custom _ => True

/-- The calls of `create_conf` with these indices and results. -/
def createCalls (made : List (Nat × Nat)) : List ModuleCall :=
  made.map fun x => .createConf x.1 (some x.2)

/-- The calls of `init_conf` with these indices and arguments. -/
def initCalls (given : List (Nat × Nat)) : List ModuleCall :=
  given.map fun x => .initConf x.1 x.2

/-- The indices of the core modules with a hook. -/
def hooked (has : CycleModule → Bool) (mods : List CycleModule) : List Nat :=
  (mods.filter fun c => c.module.type == coreModule && has c).map fun c => c.module.index

/-- From one history to another, the last call first: `create_conf` of every core module that has
it, once; the handlers of directives; and `init_conf` of every core module that has it, once, on the
configuration in its slot.  Nothing else is taken for a core module. -/
def Lifecycle (mods : List CycleModule) (confCtx : Nat) (slots : Nat → Nat)
    (before after : List ModuleCall) : Prop :=
  ∃ made handled given,
    after = (initCalls given).reverse ++ (handled ++ ((createCalls made).reverse ++ before)) ∧
    (made.map Prod.fst).Perm (hooked (fun c => c.createConf.isSome) mods) ∧
    (∀ e ∈ handled, e.OfDirective) ∧
    (given.map Prod.fst).Perm (hooked (fun c => c.initConf.isSome) mods) ∧
    ∀ x ∈ given, x.2 = slots (confCtx + sizeofPointer * x.1)

/-- Module code does not write the history.  It is the caller of a module that does. -/
structure Silent (mods : List CycleModule)
    (custom : Nat → View → List Word → Configured Machine → Act (Configured Machine)) : Prop where
  create : ∀ c ∈ mods, ∀ create, c.createConf = some create →
    ∀ w : Configured Machine, (create w).2.sys.calls = w.sys.calls
  handlers : (cycleTable mods custom).Within fun w w' => w'.sys.calls = w.sys.calls

/-! ## 2. What a call does

Up to the parse the history is known exactly: the calls of `create_conf`, in the order of the
modules.  After it only one thing is known of what was added, that it came from directives. -/

/-- The history with `create_conf` called for all but the modules `cs`. -/
def CreatedBut (mods : List CycleModule) (before : List ModuleCall) (cs : List CycleModule)
    (calls : List ModuleCall) : Prop :=
  ∃ made, made.map Prod.fst ++ hooked (fun c => c.createConf.isSome) cs
      = hooked (fun c => c.createConf.isSome) mods ∧
    calls = (createCalls made).reverse ++ before

/-- The history with directives handled behind these. -/
def Handled (mods : List CycleModule) (before calls : List ModuleCall) : Prop :=
  ∃ made handled, made.map Prod.fst = hooked (fun c => c.createConf.isSome) mods ∧
    (∀ e ∈ handled, e.OfDirective) ∧
    calls = handled ++ ((createCalls made).reverse ++ before)

section
variable {A : Alignment} {mods : List CycleModule} {before : List ModuleCall}
variable {custom : Nat → View → List Word → Configured Machine → Act (Configured Machine)}

theorem hooked_cons_skip {has : CycleModule → Bool} {c : CycleModule} {cs : List CycleModule}
    (h : c.module.type ≠ coreModule ∨ has c = false) : hooked has (c :: cs) = hooked has cs := by
  have hnot : ¬ (c.module.type == coreModule && has c) = true := by
    rcases h with h | h
    · simp [h]
    · simp [h]
  simp only [hooked, List.filter_cons, if_neg hnot]

theorem hooked_cons_hook {has : CycleModule → Bool} {c : CycleModule} {cs : List CycleModule}
    (htype : c.module.type = coreModule) (h : has c = true) :
    hooked has (c :: cs) = c.module.index :: hooked has cs := by
  have hyes : (c.module.type == coreModule && has c) = true := by simp [htype, h]
  simp only [hooked, List.filter_cons, if_pos hyes, List.map_cons]

/-- The loop over the modules calls the hooks in turn. -/
theorem createConfs_created (hsilent : Silent mods custom) (confCtx : Nat) :
    Setup.Leads (fun w => CreatedBut mods before mods w.sys.calls) (createConfs confCtx mods)
      (fun _ w => CreatedBut mods before [] w.sys.calls) fun _ => True := by
  refine createConfs_leads (I := fun cs w => CreatedBut mods before cs w.sys.calls) ?_
    (fun _ _ _ _ _ _ _ _ => trivial) ?_ mods fun _ h => h
  · rintro c cs w hc hskip ⟨made, hmade, hcalls⟩
    have hno : c.module.type ≠ coreModule ∨ c.createConf.isSome = false := by
      rcases hskip with h | h
      · exact Or.inl h
      · exact Or.inr (by rw [h]; rfl)
    rw [hooked_cons_skip hno] at hmade
    exact ⟨made, hmade, hcalls⟩
  · rintro c cs create w rv hc htype hcreate ⟨made, hmade, hcalls⟩ hsome
    rw [hooked_cons_hook htype (by rw [hcreate]; rfl)] at hmade
    refine ⟨made ++ [(c.module.index, rv)], ?_, ?_⟩
    · rw [List.map_append, List.append_assoc]
      exact hmade
    · have hsame := hsilent.create c hc create hcreate w
      simp only [Machine.record, hsame, hcalls, createCalls, List.map_append, List.reverse_append]
      rfl

/-- Handlers add calls of directives. -/
theorem recorded_handled (hsilent : Silent mods custom) :
    (cycleTable mods custom).recorded.Upholds (Machine.sys A).configured
      fun _ w => Handled mods before w.sys.calls := by
  have hadd : ∀ {w : Configured Machine} {e : ModuleCall}, e.OfDirective →
      Handled mods before w.sys.calls → Handled mods before (w.sys.record e).calls := by
    rintro w e he ⟨made, handled, hmade, hall, hcalls⟩
    refine ⟨made, e :: handled, hmade, ?_, ?_⟩
    · rintro e' (_ | ⟨_, he'⟩)
      · exact he
      · exact hall e' he'
    · simp only [Machine.record, hcalls, List.cons_append]
  have hkeep : ∀ w w' : Configured Machine, w'.sys.calls = w.sys.calls →
      Handled mods before w.sys.calls → Handled mods before w'.sys.calls := by
    rintro w w' hsame ⟨made, handled, hmade, hall, hcalls⟩
    exact ⟨made, handled, hmade, hall, hsame.trans hcalls⟩
  refine Table.recorded_upholds ?_ ?_
  · intro m hm cmds hcmds cmd hcmd view args w hw _
    exact ((hsilent.handlers.set m hm cmds hcmds cmd hcmd _ _ _ _).keeps hkeep
      (hadd (e := .set _ _ _ _) trivial hw)).upholds
  · intro handler view args w hw
    exact ((hsilent.handlers.custom handler _ _ _).keeps hkeep
      (hadd (e := .custom _) trivial hw)).upholds

/-- Every call that returns a cycle calls `create_conf` where it is, then handles directives, and
calls no module after that.  This is the history of the code, whatever the law asks for. -/
theorem initCycle_created {depth : Nat} {old : Cycle} {w₀ : Configured Host} {cycle : Cycle}
    {w : Configured Machine} (hsilent : Silent mods custom)
    (hrun : initCycle A mods custom depth old w₀ = .returned cycle w) :
    Handled mods w₀.sys.calls w.sys.calls := by
  have hinit := initCycle_run A mods custom depth old w₀
  rw [hrun] at hinit
  cases hinit with
  | @done pool heap confCtx w₁ w₂ _ _ hsome hpool halloc hrest hcalls hslots =>
    have hw₁ := (allocConfCtx_frame A mods (fun calls _ => calls = w₀.sys.calls)
      (X := fun _ => True) fun _ _ => trivial).run (w := w₀.withPool pool heap) rfl
    have hstart : CreatedBut mods w₀.sys.calls mods w₁.sys.calls :=
      ⟨[], rfl, hw₁.ok _ _ halloc⟩
    have hmain : ∀ w : Configured Machine, CreatedBut mods w₀.sys.calls [] w.sys.calls →
        Handled mods w₀.sys.calls w.sys.calls := by
      rintro w ⟨made, hmade, hafter⟩
      exact ⟨made, [], by simpa [hooked] using hmade, by simp, hafter⟩
    have hleads : Setup.Leads (fun w => CreatedBut mods w₀.sys.calls mods w.sys.calls)
        (setUpFrom A mods custom depth old confCtx)
        (fun cycle w => cycle.confCtx = confCtx ∧
          ∃ _ : View, Handled mods w₀.sys.calls w.sys.calls) fun _ => True :=
      setUpFrom_leads depth old (P := fun w => CreatedBut mods w₀.sys.calls mods w.sys.calls)
        (K := fun _ w => Handled mods w₀.sys.calls w.sys.calls) (fun _ hw => hw)
        (fun n => poolCall_frame (fun calls _ => CreatedBut mods _ mods calls)
          (fun _ _ => trivial) .confFile (.pnalloc (wadd n 1)))
        (cycleModules_calls (CreatedBut mods _ mods) (fun _ _ => trivial) _)
        (createConfs_created hsilent confCtx)
        (createArgs_frame (fun calls _ => CreatedBut mods _ [] calls) fun _ _ => trivial)
        (createTemp_frame (fun calls _ => CreatedBut mods _ [] calls) fun _ _ => trivial)
        hmain (fun _ _ _ => trivial)
        (fun _ => frame_disciplined A fun calls _ => Handled mods _ calls)
        (recorded_handled hsilent)
    obtain ⟨-, -, hhandled⟩ := (hleads.run hstart).ok _ _ hrest
    exact hcalls ▸ hhandled

/-- Code that only uses the pools does not write the history. -/
theorem Machine.Uses.calls_eq {A : Alignment} {m m' : Machine} (h : Machine.Uses A m m') :
    m'.calls = m.calls := by
  induction h with
  | refl => rfl
  | main _ _ _ ih => exact ih
  | temp _ _ _ ih => exact ih
  | listen _ _ ih => exact ih

theorem Act.Within.mono {σ : Type} {R R' : σ → σ → Prop} (hR : ∀ w w', R w w' → R' w w') :
    ∀ {a : Act σ} {w : σ}, a.Within R w → a.Within R' w
  | .ret _ _ _, _, h => hR _ _ h
  | .parse _ _ _ _, _, h =>
    ⟨hR _ _ h.1, fun rv view args w => Act.Within.mono hR (h.2 rv view args w)⟩

theorem ModulesUse.silent (h : ModulesUse A mods custom) : Silent mods custom where
  create c hc create hcreate w := (h.create c hc create hcreate w).calls_eq
  handlers :=
    { set := fun m hm cmds hcmds cmd hcmd view args p w =>
        (h.handlers.set m hm cmds hcmds cmd hcmd view args p w).mono fun _ _ => (·.calls_eq)
      custom := fun handler view args w =>
        (h.handlers.custom handler view args w).mono fun _ _ => (·.calls_eq) }

end

/-! ## 3. When the law holds

The history ends with the directives, so the law, which has the calls of `init_conf` after them, is
kept just when there are none to make. -/

/-- A history without `init_conf` keeps to the law only when no core module has the hook. -/
theorem Lifecycle.no_hook {L : ModuleTable} {confCtx : Nat} {slots : Nat → Nat}
    {before after : List ModuleCall} (h : Lifecycle L.preinit confCtx slots before after)
    (hhandled : Handled L.preinit before after) :
    ∀ c ∈ L.modules, c.module.type = coreModule → c.initConf = none := by
  intro c hc htype
  obtain ⟨made, handled, -, hall, hcalls⟩ := hhandled
  obtain ⟨made', handled', given, hafter, -, -, hgiven, -⟩ := h
  by_contra hhook
  -- the call of the hook would be in the history
  obtain ⟨i, hi⟩ := List.getElem?_of_mem hc
  have hmem : i ∈ hooked (fun c => c.initConf.isSome) L.preinit := by
    refine List.mem_map.mpr ⟨_, List.mem_filter.mpr ⟨L.preinit_mem hi, ?_⟩, rfl⟩
    simp only [htype, beq_self_eq_true, Bool.true_and]
    exact Option.isSome_iff_ne_none.mpr hhook
  obtain ⟨x, hx, rfl⟩ := List.mem_map.mp (hgiven.mem_iff.mpr hmem)
  have hnew : handled ++ (createCalls made).reverse
      = (initCalls given).reverse ++ (handled' ++ (createCalls made').reverse) := by
    have heq := hcalls.symm.trans hafter
    simp only [← List.append_assoc] at heq
    rw [List.append_cancel_right heq, List.append_assoc]
  have hinit : ModuleCall.initConf x.1 x.2 ∈ handled ++ (createCalls made).reverse := by
    rw [hnew]
    exact List.mem_append_left _ (List.mem_reverse.mpr (List.mem_map_of_mem hx))
  rcases List.mem_append.mp hinit with h | h
  · exact hall _ h
  · obtain ⟨y, -, hy⟩ := List.mem_map.mp (List.mem_reverse.mp h)
    cases hy

/-- **The law holds just when no core module has an `init_conf`**, in every call that returns a
cycle, for every table of modules. -/
theorem lifecycle_iff {A : Alignment} (L : ModuleTable)
    {custom : Nat → View → List Word → Configured Machine → Act (Configured Machine)}
    {depth : Nat} {old : Cycle} {w₀ : Configured Host} {cycle : Cycle} {w : Configured Machine}
    (hsilent : Silent L.preinit custom)
    (hrun : initCycle A L.preinit custom depth old w₀ = .returned cycle w) :
    Lifecycle L.preinit cycle.confCtx w.slots w₀.sys.calls w.sys.calls ↔
      ∀ c ∈ L.modules, c.module.type = coreModule → c.initConf = none := by
  have hhandled := initCycle_created hsilent hrun
  constructor
  · exact fun h => h.no_hook hhandled
  · intro hnone
    obtain ⟨made, handled, hmade, hall, hcalls⟩ := hhandled
    have hempty : hooked (fun c => c.initConf.isSome) L.preinit = [] := by
      unfold hooked
      rw [List.map_eq_nil_iff, List.filter_eq_nil_iff]
      intro c hc hhook
      obtain ⟨i, hi⟩ := List.getElem?_of_mem hc
      obtain ⟨c₀, hc₀, rfl⟩ := L.preinit_get hi
      simp only [Bool.and_eq_true, beq_iff_eq] at hhook
      rw [hnone c₀ (List.mem_of_getElem? hc₀) hhook.1] at hhook
      exact absurd hhook.2 (by simp)
    refine ⟨made, handled, [], hcalls, ?_, hall, ?_, by simp⟩
    · rw [hmade]
    · rw [hempty]
      exact List.Perm.refl _

/-- A cycle is returned. -/
def InitResult.isReturned : InitResult → Bool
  | .failed _ => false
  | .returned _ _ => true

/-- The call on a host where everything succeeds returns a cycle. -/
theorem sampleHost_returned : ∃ cycle w,
    initCycle .word (cwModules .word 4) noCustom 2 sampleCycle (sampleHost 9)
      = .returned cycle w := by
  have hrun : (initCycle .word (cwModules .word 4) noCustom 2 sampleCycle
      (sampleHost 9)).isReturned = true := by decide +kernel
  cases hr : initCycle .word (cwModules .word 4) noCustom 2 sampleCycle (sampleHost 9) with
  | failed w =>
    rw [hr] at hrun
    cases hrun
  | returned cycle w => exact ⟨cycle, w, rfl⟩

/-- A table with the sample module only. -/
def pidModules : ModuleTable where
  modules := [sampleModule]
  names := ["sample_module"]
  distinct := List.nodup_singleton _
  terminated := by
    intro c hc
    obtain rfl := List.mem_singleton.mp hc
    exact (by decide : 0x6100 ≠ 0)
  named := rfl
  fits := by
    show (1 + maxDynamicModules + 1) * sizeofPointer < wordSize
    decide

theorem pidModules_silent : Silent pidModules.preinit noCustom where
  create := by
    intro c hc create hcreate w
    obtain rfl := List.mem_singleton.mp hc
    obtain rfl := Option.some.inj hcreate
    rfl
  handlers :=
    { set := by
        intro m hm cmds hcmds cmd hcmd view args p w
        obtain rfl := List.mem_singleton.mp hm
        obtain rfl := Option.some.inj hcmds
        rcases List.mem_cons.mp hcmd with rfl | hcmd
        · exact rfl
        · obtain rfl := List.mem_singleton.mp hcmd
          exact rfl
      custom := fun _ _ _ _ => rfl }

/-- The file `pid a;user a;`. -/
def pidFile : List UInt8 :=
  pidText ++ [Ch.space, 97, Ch.semicolon] ++ (userText ++ [Ch.space, 97, Ch.semicolon])

/-- The calls into the module, the last one first, with `conf_ctx` at `0x200000`. -/
def pidCalls : List ModuleCall :=
  [.set 0 (mainConf ||| confTake1) (mainView 0x200000) 0x200000,
   .set 0 (mainConf ||| directConf ||| confTake1) (mainView 0x200000) 0x7100,
   .createConf 0 (some 0x7100)]

/-- The statement for a module that keeps to the law: its configuration is made before its two
directives are handled. -/
theorem lifecycle_iff_sample : ∃ cycle w,
    initCycle .word pidModules.preinit noCustom 2 sampleCycle (fileHost pidFile)
      = .returned cycle w ∧ w.sys.calls = pidCalls ∧
    Lifecycle pidModules.preinit cycle.confCtx w.slots [] w.sys.calls := by
  have hcalls : (match initCycle .word pidModules.preinit noCustom 2 sampleCycle
      (fileHost pidFile) with
      | .failed _ => []
      | .returned _ w => w.sys.calls) = pidCalls := by decide +kernel
  cases hrun : initCycle .word pidModules.preinit noCustom 2 sampleCycle (fileHost pidFile) with
  | failed w =>
    rw [hrun] at hcalls
    cases hcalls
  | returned cycle w =>
    rw [hrun] at hcalls
    refine ⟨cycle, w, rfl, hcalls, (lifecycle_iff pidModules pidModules_silent hrun).mpr ?_⟩
    intro c hc _
    obtain rfl := List.mem_singleton.mp hc
    rfl

/-- The core module has an `init_conf`, and it is not called. -/
theorem coreModule_notInited : ∃ cycle w,
    initCycle .word (cwModuleTable .word 4).preinit noCustom 2 sampleCycle (sampleHost 9)
      = .returned cycle w ∧
    ¬ Lifecycle (cwModuleTable .word 4).preinit cycle.confCtx w.slots [] w.sys.calls := by
  obtain ⟨cycle, w, hrun⟩ := sampleHost_returned
  refine ⟨cycle, w, hrun, fun h => ?_⟩
  have hhandled := initCycle_created (cwModules_use .word 4).silent hrun
  have hnone := h.no_hook hhandled _ List.mem_cons_self rfl
  cases hnone

end Capwap
