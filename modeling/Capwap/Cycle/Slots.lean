/-
# Every module has a slot of its own

A module's index is its position, `conf_ctx` has room for every index, and the array of the cycle is
the list of the modules and a `NULL`.  So the three ways in which `cw_conf_handler` finds the
argument `conf` of a directive agree with the loop that calls `create_conf`: in the main context a
`CW_DIRECT_CONF` command is given the pointer that its own module's `create_conf` returned, and any
other command the address of its own module's slot (`slots_isolated`).

The invariant is `SlotsHeld`: the slots of the modules that have a direct command are what
`create_conf` returned, and every handler called so far was given its own.  Module code must leave
these slots alone, and must not take another context for the main one (`Confined`).
-/
import Capwap.Cycle.Lifecycle

namespace Capwap

open Std.Do

/-! ## 1. The array of the modules

`cw_cycle_modules` is one allocation and a `memcpy`.  Its result is computed here from that of the
allocation: where there is memory the call succeeds, and the array is known. -/

section
variable {A : Alignment} {mods : List CycleModule} {w w' : Configured Machine} {p : Nat}

/-- A call on the cycle's pool. -/
theorem poolCall_run (e : InitError) (op : PoolOp) (w : Configured Machine) :
    poolCall A e op w = match w.sys.call A op with
      | (none, m) => .error e { w with sys := m }
      | (some p, m) => .ok p { w with sys := m } := by
  unfold poolCall
  cases hcall : w.sys.call A op with
  | mk ans m =>
    cases ans with
    | none => simp [bind, EStateM.bind, modifyGet, MonadStateOf.modifyGet, EStateM.modifyGet,
        Configured.lift, hcall, throw, throwThe, MonadExceptOf.throw, EStateM.throw]
    | some p => simp [bind, EStateM.bind, modifyGet, MonadStateOf.modifyGet, EStateM.modifyGet,
        Configured.lift, hcall, pure, EStateM.pure]

/-- `memcpy` of pointers writes them one after the other, and nothing else. -/
theorem copyPointers_run : ∀ (xs : List Nat) (p : Nat) (w : Configured Machine),
    ∃ slots, copyPointers p xs w = .ok () { w with slots := slots } ∧
      (∀ (i x : Nat), xs[i]? = some x → slots (p + sizeofPointer * i) = x) ∧
      ∀ a, a < p ∨ p + sizeofPointer * xs.length ≤ a → slots a = w.slots a := by
  intro xs
  induction xs with
  | nil =>
    intro p w
    exact ⟨w.slots, rfl, by simp, fun _ _ => rfl⟩
  | cons x xs ih =>
    intro p w
    obtain ⟨slots, hrun, hin, hout⟩ := ih (p + sizeofPointer)
      { w with slots := fun a => if a = p then x else w.slots a }
    refine ⟨slots, hrun, ?_, ?_⟩
    · intro i y hy
      unfold sizeofPointer at hin hout ⊢
      cases i with
      | zero =>
        obtain rfl := Option.some.inj hy
        rw [hout _ (Or.inl (by omega))]
        exact if_pos (by omega)
      | succ i =>
        rw [← hin i y hy]
        exact congrArg slots (by omega)
    · intro a ha
      unfold sizeofPointer at hout ha
      rw [List.length_cons] at ha
      have hne : a ≠ p := by omega
      rw [hout a (by omega)]
      exact if_neg hne

/-- `cw_cycle_modules`, when its allocation succeeds: it copies, and cannot fail any more.  The
array has the modules first, and what it was cleared to behind them. -/
theorem cycleModules_run (mods : List CycleModule) {maxModule : Nat} {m : Machine}
    (hcall : w.sys.call A (.pcalloc (wmul (wadd maxModule 1) sizeofPointer)) = (some p, m)) :
    ∃ slots, cycleModules A maxModule mods w = .ok p { w with sys := m, slots := slots } ∧
      (∀ (i : Nat) (c : CycleModule), mods[i]? = some c →
        slots (p + sizeofPointer * i) = c.self) ∧
      (∀ a, p + sizeofPointer * mods.length ≤ a →
        a < p + wmul (wadd maxModule 1) sizeofPointer → slots a = 0) ∧
      ∀ a, a < p ∨ p + wmul (wadd maxModule 1) sizeofPointer ≤ a ∧
        p + sizeofPointer * mods.length ≤ a → slots a = w.slots a := by
  obtain ⟨slots, hrun, hin, hout⟩ := copyPointers_run (mods.map CycleModule.self) p
    { w with
      sys := m
      slots := fun a => if p ≤ a ∧ a < p + wmul (wadd maxModule 1) sizeofPointer then 0
        else w.slots a }
  rw [List.length_map] at hout
  refine ⟨slots, ?_, ?_, ?_, ?_⟩
  · unfold cycleModules
    simp only [bind, EStateM.bind, poolCall_run, hcall, zeroSlots, modify, modifyGet,
      MonadStateOf.modifyGet, EStateM.modifyGet, hrun, pure, EStateM.pure]
  · intro i c hc
    refine hin i c.self ?_
    rw [List.getElem?_map, hc, Option.map_some]
  · intro a hge hlt
    exact (hout a (Or.inr hge)).trans (if_pos ⟨by omega, hlt⟩)
  · intro a ha
    exact (hout a (by omega)).trans (if_neg (by omega))

/-- A successful `cw_cycle_modules`: its allocation succeeded, and the rest is as above. -/
theorem cycleModules_ok {maxModule : Nat} (h : cycleModules A maxModule mods w = .ok p w') :
    w.sys.call A (.pcalloc (wmul (wadd maxModule 1) sizeofPointer)) = (some p, w'.sys) ∧
      (∀ (i : Nat) (c : CycleModule), mods[i]? = some c →
        w'.slots (p + sizeofPointer * i) = c.self) ∧
      (∀ a, p + sizeofPointer * mods.length ≤ a →
        a < p + wmul (wadd maxModule 1) sizeofPointer → w'.slots a = 0) ∧
      ∀ a, a < p ∨ p + wmul (wadd maxModule 1) sizeofPointer ≤ a ∧
        p + sizeofPointer * mods.length ≤ a → w'.slots a = w.slots a := by
  cases hcall : w.sys.call A (.pcalloc (wmul (wadd maxModule 1) sizeofPointer)) with
  | mk ans m =>
    cases ans with
    | none =>
      unfold cycleModules at h
      simp [bind, EStateM.bind, poolCall_run, hcall] at h
    | some q =>
      obtain ⟨slots, hrun, hin, hnull, hout⟩ := cycleModules_run mods hcall
      obtain ⟨rfl, rfl⟩ := EStateM.Result.ok.inj (hrun.symm.trans h)
      exact ⟨rfl, hin, hnull, hout⟩

end

/-! ## 2. What module code is to leave alone

Handlers and `create_conf` are any code, and could write into the slots of others.  What is asked
of them is what the code relies on: a slot that is read later is left as it is, and a handler that
changes the context for a block changes the command type as well. -/

/-- The module has a `CW_DIRECT_CONF` command: its slot is read for it. -/
def CycleModule.HasDirect (c : CycleModule) : Prop :=
  ∃ cmds, c.module.commands = some cmds ∧ ∃ cmd ∈ cmds, cmd.type &&& directConf ≠ 0

/-- In the main context, `ctx` is `conf_ctx`. -/
def View.Main (confCtx : Nat) (view : View) : Prop := view.cmdType = mainConf → view.ctx = confCtx

/-- The slots of the modules with direct commands, and the history, are left as they are.  The slot
of a module without one may be written: its handler is given the address for this. -/
structure LeavesSlots (mods : List CycleModule) (confCtx : Nat) (w w' : Configured Machine) :
    Prop where
  calls : w'.sys.calls = w.sys.calls
  slots : ∀ (i : Nat) (c : CycleModule), mods[i]? = some c → c.HasDirect →
    w'.slots (confCtx + sizeofPointer * i) = w.slots (confCtx + sizeofPointer * i)

/-- A handler at work leaves the slots alone and takes no other context for the main one, from one
parse it asks for to the next. -/
def Act.Confined (mods : List CycleModule) (confCtx : Nat) (w : Configured Machine) :
    Act (Configured Machine) → Prop
  | .ret _ view w' => view.Main confCtx ∧ LeavesSlots mods confCtx w w'
  | .parse _ view w' k => view.Main confCtx ∧ LeavesSlots mods confCtx w w' ∧
    ∀ rv view' args w'', view'.Main confCtx → (k rv view' args w'').Confined mods confCtx w''

/-- Module code, where it is called. -/
structure Confined (A : Alignment) (mods : List CycleModule)
    (custom : Nat → View → List Word → Configured Machine → Act (Configured Machine))
    (confCtx : Nat) : Prop where
  create : ∀ c ∈ mods, ∀ create, c.createConf = some create → ∀ w : Configured Machine,
    LeavesSlots mods confCtx w (create w).2
  set : ∀ c ∈ mods, ∀ cmds, c.module.commands = some cmds → ∀ cmd ∈ cmds,
    ∀ (view : View) (args : List Word) (w : Configured Machine), view.Main confCtx →
      cmd.type &&& view.cmdType ≠ 0 →
        (cmd.set view args (confPointer (Machine.sys A).configured view c.module cmd w) w).Confined
          mods confCtx w
  custom : ∀ (handler : Nat) (view : View) (args : List Word) (w : Configured Machine),
    view.Main confCtx → (custom handler view args w).Confined mods confCtx w

/-- The argument `conf` of a handler is its own module's: for a direct command what `create_conf`
returned, or `NULL` if the module has none, and otherwise the address of the slot.  What was
returned is looked up in the history. -/
structure Given (c : CycleModule) (confCtx : Nat) (new : List ModuleCall) (type p : Nat) :
    Prop where
  made : type &&& directConf ≠ 0 → c.module.type = coreModule → c.createConf.isSome →
    .createConf c.module.index (some p) ∈ new ∧
      ∀ rv, .createConf c.module.index rv ∈ new → rv = some p
  null : type &&& directConf ≠ 0 → c.module.type ≠ coreModule ∨ c.createConf = none → p = 0
  slot : type &&& directConf = 0 → p = confCtx + sizeofPointer * c.module.index

/-- Every handler called in the main context was given its own. -/
def SetsOwn (mods : List CycleModule) (confCtx : Nat) (new : List ModuleCall) : Prop :=
  ∀ (i type : Nat) (view : View) (p : Nat), .set i type view p ∈ new → view.cmdType = mainConf →
    ∃ c, mods[i]? = some c ∧ Given c confCtx new type p

/-! ## 3. The regions of the cycle's pool

The array of the cycle and `conf_ctx` are both regions of the pool, so the pool's spatial invariant
says that writing the one does not change the other. -/

section
variable {A : Alignment} {host : Host} {m m' : Machine} {n p : Nat}

/-- A plain allocation adds its region, and forgets none. -/
theorem Machine.call_plain {op : PoolOp} (hop : op = .pcalloc n ∨ op = .pnalloc n) :
    (m.call A op).2.main.plain
      = ((m.call A op).1.map fun p => ⟨p, n⟩).toList ++ m.main.plain := by
  have hhand : ∀ r : Option Nat × Pool × Heap,
      ((m.main.world m.heap).handOut n r).2.holdings.plain
        = (((m.main.world m.heap).handOut n r).1.map fun p => ⟨p, n⟩).toList ++ m.main.plain := by
    rintro ⟨ans, pool, heap⟩
    cases ans <;> rfl
  rcases hop with rfl | rfl
  · exact hhand _
  · exact hhand _

/-- A region handed out is apart from the plain ones held before. -/
theorem Machine.Held.fresh {staged : Bool} {bufs : List Nat} {fds : List Int}
    (h : m.Held A host staged bufs fds) (hn : n < wordSize)
    (hcall : m.call A (.pcalloc n) = (some p, m')) :
    m'.main.plain = ⟨p, n⟩ :: m.main.plain ∧
      ∀ r ∈ m.main.plain, (⟨p, n⟩ : Region).Apart r := by
  have hadmits : (m.main.world m.heap).Admits (.pcalloc n) := hn
  have hheld := h.call hadmits
  have hplain := Machine.call_plain (A := A) (m := m) (n := n) (Or.inl rfl)
  rw [hcall] at hheld hplain
  refine ⟨hplain, fun r hr => ?_⟩
  obtain ⟨V, W, hm⟩ := hheld.owns
  obtain ⟨h₀, other, hinv⟩ := hm.main
  have hlive : (m'.main.pool.nodes ++ (m'.main.plain ++
      m'.main.arrays.flatMap fun a => [a.ctrl, a.arr.area])).Pairwise Region.Apart :=
    hinv.pool.sound.live_apart
  have hpair := (List.pairwise_append.mp (List.pairwise_append.mp hlive).2.1).1
  rw [hplain] at hpair
  exact (List.pairwise_cons.mp hpair).1 r hr

end

/-! ## 4. Up to the loop

From the allocation of `conf_ctx` to the loop nothing is written there but zeros.  The address
arithmetic is in this section: the sizes do not wrap around, and the slot of every index is
inside. -/

/-- `conf_ctx` is a region of the cycle's pool, and no module has been called.  The pool is held as
in `Cycle/Machine.lean`. -/
structure Reserved (A : Alignment) (host : Host) (mods : List CycleModule) (confCtx : Nat)
    (before : List ModuleCall) (w : Configured Machine) : Prop where
  held : w.sys.Held A host false [] []
  mem : ⟨confCtx, confCtxSize mods⟩ ∈ w.sys.main.plain
  calls : w.sys.calls = before

/-- Every slot is `NULL`. -/
def Cleared (mods : List CycleModule) (confCtx : Nat) (slots : Nat → Nat) : Prop :=
  ∀ (i : Nat) (c : CycleModule), mods[i]? = some c → slots (confCtx + sizeofPointer * i) = 0

/-- A part of the set-up does what each of its runs does. -/
theorem Setup.Leads.of_run {α : Type} {P X : Configured Machine → Prop} {x : Setup α}
    {Q : α → Configured Machine → Prop} (h : ∀ w, P w → Setup.Ends Q X (x w)) :
    Setup.Leads P x Q X := by
  intro w hw
  have hends := h w hw
  cases hr : x w with
  | ok a w' =>
    have hok := hends.ok a w' hr
    simpa [wp, PredTrans.apply, EStateM.run, hr] using hok
  | error e w' =>
    have herror := hends.error e w' hr
    simpa [wp, PredTrans.apply, EStateM.run, hr] using herror

namespace ModuleTable

variable (L : ModuleTable)

theorem confCtxSize_preinit :
    confCtxSize L.preinit = (L.modules.length + maxDynamicModules) * sizeofPointer := by
  have hfits := L.fits
  unfold confCtxSize
  rw [L.preinit_length, L.maxModule_eq]
  unfold sizeofPointer at hfits ⊢
  exact Nat.mod_eq_of_lt (by omega)

/-- The size of the array of the modules. -/
theorem arraySize_eq :
    wmul (wadd (wadd L.preinit.length maxDynamicModules) 1) sizeofPointer
      = (L.modules.length + maxDynamicModules + 1) * sizeofPointer := by
  have hfits := L.fits
  rw [L.preinit_length, L.maxModule_eq]
  have hone : wadd (L.modules.length + maxDynamicModules) 1
      = L.modules.length + maxDynamicModules + 1 := by
    unfold sizeofPointer at hfits
    exact Nat.mod_eq_of_lt (by omega)
  rw [hone]
  exact Nat.mod_eq_of_lt hfits

/-- Every slot is in `conf_ctx`. -/
theorem slot_fits {i : Nat} {c : CycleModule} (h : L.preinit[i]? = some c) :
    sizeofPointer * (i + 1) ≤ confCtxSize L.preinit := by
  obtain ⟨hi, -⟩ := List.getElem?_eq_some_iff.mp h
  rw [L.preinit_length] at hi
  rw [L.confCtxSize_preinit]
  unfold sizeofPointer maxDynamicModules
  omega

/-- The indices are the positions. -/
theorem preinit_indices :
    L.preinit.map (fun c => c.module.index) = List.range L.modules.length := by
  refine List.ext_getElem? fun i => ?_
  unfold preinit
  rw [List.getElem?_map, List.getElem?_mapIdx, Option.map_map]
  by_cases hi : i < L.modules.length
  · rw [List.getElem?_range hi, List.getElem?_eq_getElem hi]
    rfl
  · rw [List.getElem?_eq_none (by omega), List.getElem?_eq_none (by rw [List.length_range]; omega)]
    rfl

theorem hooked_nodup (has : CycleModule → Bool) : (hooked has L.preinit).Nodup := by
  have hsub : (hooked has L.preinit).Sublist (L.preinit.map fun c => c.module.index) :=
    List.filter_sublist.map _
  rw [L.preinit_indices] at hsub
  exact List.nodup_range.sublist hsub

/-- Among the hooked modules are those that have the hook, and no others. -/
theorem mem_hooked_iff (has : CycleModule → Bool) {i : Nat} {c : CycleModule}
    (h : L.preinit[i]? = some c) :
    i ∈ hooked has L.preinit ↔ c.module.type = coreModule ∧ has c = true := by
  unfold hooked
  rw [List.mem_map]
  constructor
  · rintro ⟨d, hd, rfl⟩
    obtain ⟨hmem, hyes⟩ := List.mem_filter.mp hd
    obtain ⟨j, hj⟩ := List.getElem?_of_mem hmem
    rw [L.preinit_index hj, hj] at h
    obtain rfl := Option.some.inj h
    simpa using hyes
  · rintro ⟨htype, hhas⟩
    refine ⟨c, List.mem_filter.mpr ⟨List.mem_of_getElem? h, ?_⟩, L.preinit_index h⟩
    simp only [htype, beq_self_eq_true, hhas, Bool.and_self]

end ModuleTable

section
variable {A : Alignment} {L : ModuleTable} {host : Host} {confCtx : Nat}
variable {before : List ModuleCall} {X : Configured Machine → Prop}

/-- Clearing `conf_ctx` clears every slot. -/
theorem Cleared.zero (L : ModuleTable) (confCtx : Nat) (slots : Nat → Nat) :
    Cleared L.preinit confCtx fun a =>
      if confCtx ≤ a ∧ a < confCtx + confCtxSize L.preinit then 0 else slots a := by
  intro i c hc
  have hfits := L.slot_fits hc
  unfold sizeofPointer at hfits ⊢
  exact if_pos (by omega)

/-- The allocations for `conf_ctx` reserve it. -/
theorem Reserved.start {w₀ : Configured Host} (hheap : w₀.sys.heap.Ok)
    (hkernel : w₀.sys.kernel.Ok) {pool : Pool} {heap : Heap} {w : Configured Machine}
    (hpool : createPool cyclePoolSize w₀.sys.heap = (some pool, heap))
    (halloc : allocConfCtx A L.preinit (w₀.withPool pool heap) = .ok confCtx w) :
    Reserved A w₀.sys L.preinit confCtx w₀.sys.calls w := by
  have hheld : (w₀.withPool pool heap).sys.Held A w₀.sys false [] [] :=
    Machine.Held.start hheap hkernel hpool
  have hcalls : w.sys.calls = w₀.sys.calls :=
    ((allocConfCtx_frame A L.preinit (fun calls _ => calls = w₀.sys.calls)
      (X := fun _ => True) fun _ _ => trivial).run (w := w₀.withPool pool heap) rfl).ok _ _ halloc
  unfold allocConfCtx at halloc
  cases hfirst : (w₀.withPool pool heap).sys.call A (.pcalloc sizeofCycle) with
  | mk ans m =>
    have hadmits : ((w₀.withPool pool heap).sys.main.world
        (w₀.withPool pool heap).sys.heap).Admits (.pcalloc sizeofCycle) := by
      show sizeofCycle < wordSize
      decide
    have hheld₁ := hheld.call hadmits
    rw [hfirst] at hheld₁
    cases ans with
    | none => simp [bind, EStateM.bind, poolCall_run, hfirst] at halloc
    | some cycle =>
      cases hsecond : m.call A (.pcalloc (confCtxSize L.preinit)) with
      | mk ans m' =>
        have hadmits' : (m.main.world m.heap).Admits (.pcalloc (confCtxSize L.preinit)) :=
          wmul_lt _ _
        have hheld₂ := hheld₁.call hadmits'
        rw [hsecond] at hheld₂
        cases ans with
        | none => simp [bind, EStateM.bind, poolCall_run, hfirst, hsecond] at halloc
        | some p =>
          have hfresh := hheld₁.fresh (wmul_lt _ _) hsecond
          simp only [bind, EStateM.bind, poolCall_run, hfirst, hsecond,
            EStateM.Result.ok.injEq] at halloc
          obtain ⟨rfl, rfl⟩ := halloc
          refine ⟨hheld₂, ?_, hcalls⟩
          rw [hfresh.1]
          exact List.mem_cons_self

/-- The copy of the file's name leaves the slots alone. -/
theorem Reserved.file (hX : ∀ w : Configured Machine, w.sys.calls = before → X w) (n : Nat) :
    Setup.Leads (fun w => Reserved A host L.preinit confCtx before w ∧
        Cleared L.preinit confCtx w.slots) (poolCall A .confFile (.pnalloc (wadd n 1)))
      (fun _ w => Reserved A host L.preinit confCtx before w ∧
        Cleared L.preinit confCtx w.slots) X := by
  refine .of_run fun w ⟨hres, hzero⟩ => ?_
  have hadmits : (w.sys.main.world w.sys.heap).Admits (.pnalloc (wadd n 1)) := wadd_lt _ _
  have hheld := hres.held.call hadmits
  have hplain := Machine.call_plain (A := A) (m := w.sys) (n := wadd n 1) (Or.inr rfl)
  have hcalls : (w.sys.call A (.pnalloc (wadd n 1))).2.calls = before := hres.calls
  rw [poolCall_run]
  cases hcall : w.sys.call A (.pnalloc (wadd n 1)) with
  | mk ans m =>
    rw [hcall] at hheld hplain hcalls
    have hmem : (⟨confCtx, confCtxSize L.preinit⟩ : Region) ∈ m.main.plain := by
      rw [hplain]
      exact List.mem_append_right _ hres.mem
    cases ans with
    | none =>
      refine ⟨?_, ?_⟩
      · rintro _ _ ⟨⟩
      · rintro _ _ ⟨⟩
        exact hX _ hcalls
    | some p =>
      refine ⟨?_, ?_⟩
      · rintro _ _ ⟨⟩
        exact ⟨⟨hheld, hmem, hcalls⟩, hzero⟩
      · rintro _ _ ⟨⟩

/-- The array of the cycle is apart from `conf_ctx`. -/
theorem Reserved.modules (hX : ∀ w : Configured Machine, w.sys.calls = before → X w) :
    Setup.Leads (fun w => Reserved A host L.preinit confCtx before w ∧
        Cleared L.preinit confCtx w.slots)
      (cycleModules A (wadd L.preinit.length maxDynamicModules) L.preinit)
      (fun _ w => Reserved A host L.preinit confCtx before w ∧
        Cleared L.preinit confCtx w.slots) X := by
  refine .of_run fun w ⟨hres, hzero⟩ => ?_
  have hcalls := (@cycleModules_calls A L.preinit X (fun calls => calls = before) hX
    (wadd L.preinit.length maxDynamicModules)).run hres.calls
  refine ⟨fun p w' hrun => ?_, hcalls.error⟩
  obtain ⟨hcall, -, -, hframe⟩ := cycleModules_ok hrun
  rw [L.arraySize_eq, L.preinit_length] at hframe
  rw [L.arraySize_eq] at hcall
  have hadmits : (w.sys.main.world w.sys.heap).Admits
      (.pcalloc ((L.modules.length + maxDynamicModules + 1) * sizeofPointer)) := L.fits
  have hheld := hres.held.call hadmits
  obtain ⟨hplain, hapart⟩ := hres.held.fresh L.fits hcall
  rw [hcall] at hheld
  have hmem : (⟨confCtx, confCtxSize L.preinit⟩ : Region) ∈ w'.sys.main.plain := by
    rw [hplain]
    exact List.mem_cons_of_mem _ hres.mem
  refine ⟨⟨hheld, hmem, hcalls.ok p w' hrun⟩, fun i c hc => ?_⟩
  -- a slot lies in a region that was held before
  have hfits := L.slot_fits hc
  have hsep := hapart _ hres.mem
  rw [hframe, hzero i c hc]
  unfold Region.Apart Region.stop at hsep
  unfold sizeofPointer at hfits hsep ⊢
  simp only at hsep
  omega

/-- The array of the cycle is the modules and a `NULL`. -/
theorem cycleModules_listed {w w' : Configured Machine} {p : Nat}
    (h : cycleModules A (wadd L.preinit.length maxDynamicModules) L.preinit w = .ok p w') :
    (List.range (L.modules.length + 1)).map (fun i => w'.slots (p + sizeofPointer * i))
      = L.modules.map CycleModule.self ++ [0] := by
  obtain ⟨-, hin, hnull, -⟩ := cycleModules_ok h
  rw [L.arraySize_eq, L.preinit_length] at hnull
  rw [List.range_succ, List.map_append]
  have hmods : (List.range L.modules.length).map (fun i => w'.slots (p + sizeofPointer * i))
      = L.modules.map CycleModule.self := by
    refine List.ext_getElem (by simp) fun i hi hi' => ?_
    have hlt : i < L.preinit.length := by simpa using hi
    have hcell := hin i _ (List.getElem?_eq_getElem hlt)
    have hself : (L.preinit.map CycleModule.self)[i]? = (L.modules.map CycleModule.self)[i]? :=
      congrArg (·[i]?) L.preinit_self
    rw [List.getElem?_eq_getElem (by simpa using hlt), List.getElem?_eq_getElem hi'] at hself
    rw [List.getElem_map, List.getElem_range, hcell, ← Option.some.inj hself, List.getElem_map]
  have hlast : w'.slots (p + sizeofPointer * L.modules.length) = 0 := by
    refine hnull _ (Nat.le_refl _) ?_
    unfold sizeofPointer maxDynamicModules
    omega
  rw [hmods, List.map_singleton, hlast]

end

/-! ## 5. The loop

The loop stores what each hook returns at the slot of its index.  The indices are distinct, so a
result that is stored stays. -/

/-- The slots after some calls of `create_conf`. -/
def Stored (mods : List CycleModule) (confCtx : Nat) (made : List (Nat × Nat))
    (slots : Nat → Nat) : Prop :=
  ∀ (i : Nat) (c : CycleModule), mods[i]? = some c → c.HasDirect →
    (∀ rv, (i, rv) ∈ made → slots (confCtx + sizeofPointer * i) = rv) ∧
    ((∀ rv, (i, rv) ∉ made) → slots (confCtx + sizeofPointer * i) = 0)

/-- `create_conf` has been called for all but the modules `cs`, and its results are stored.  The
other slots that are read are `NULL`. -/
def StoredBut (mods : List CycleModule) (confCtx : Nat) (before : List ModuleCall)
    (cs : List CycleModule) (calls : List ModuleCall) (slots : Nat → Nat) : Prop :=
  ∃ made, made.map Prod.fst ++ hooked (fun c => c.createConf.isSome) cs
      = hooked (fun c => c.createConf.isSome) mods ∧
    calls = (createCalls made).reverse ++ before ∧ Stored mods confCtx made slots

/-- What is true of the history at the end of a call. -/
def OwnSince (mods : List CycleModule) (confCtx : Nat) (before : List ModuleCall)
    (w : Configured Machine) : Prop :=
  ∃ new, w.sys.calls = new ++ before ∧ SetsOwn mods confCtx new

section
variable {A : Alignment} {L : ModuleTable} {confCtx : Nat} {before : List ModuleCall}
variable {custom : Nat → View → List Word → Configured Machine → Act (Configured Machine)}

theorem Stored.leave {mods : List CycleModule} {made : List (Nat × Nat)}
    {w w' : Configured Machine} (h : Stored mods confCtx made w.slots)
    (hleave : LeavesSlots mods confCtx w w') : Stored mods confCtx made w'.slots := by
  intro i c hc hdirect
  rw [hleave.slots i c hc hdirect]
  exact h i c hc hdirect

/-- One more result is stored; its index is new. -/
theorem Stored.snoc {mods : List CycleModule} {made : List (Nat × Nat)} {slots : Nat → Nat}
    (h : Stored mods confCtx made slots) {j rv : Nat} (hnew : j ∉ made.map Prod.fst) :
    Stored mods confCtx (made ++ [(j, rv)]) fun a =>
      if a = confCtx + sizeofPointer * j then rv else slots a := by
  intro i c hc hdirect
  obtain ⟨hmade, hnone⟩ := h i c hc hdirect
  unfold sizeofPointer at hmade hnone ⊢
  by_cases hij : i = j
  · subst hij
    simp only [if_pos]
    constructor
    · intro rv' hmem
      rcases List.mem_append.mp hmem with hold | hlast
      · exact absurd (List.mem_map_of_mem (f := Prod.fst) hold) hnew
      · exact (Prod.mk.inj (List.mem_singleton.mp hlast)).2.symm
    · intro hall
      exact absurd (List.mem_append_right _ (List.mem_singleton_self _)) (hall rv)
  · have hother : confCtx + 8 * i ≠ confCtx + 8 * j := by omega
    simp only [if_neg hother]
    constructor
    · intro rv' hmem
      refine hmade rv' ?_
      rcases List.mem_append.mp hmem with hold | hlast
      · exact hold
      · exact absurd (Prod.mk.inj (List.mem_singleton.mp hlast)).1 hij
    · exact fun hall => hnone fun rv' hmem => hall rv' (List.mem_append_left _ hmem)

/-- The loop stores what each `create_conf` returns. -/
theorem createConfs_stored (hconf : Confined A L.preinit custom confCtx) :
    Setup.Leads (fun w => StoredBut L.preinit confCtx before L.preinit w.sys.calls w.slots)
      (createConfs confCtx L.preinit)
      (fun _ w => StoredBut L.preinit confCtx before [] w.sys.calls w.slots)
      (OwnSince L.preinit confCtx before) := by
  refine createConfs_leads
    (I := fun cs w => StoredBut L.preinit confCtx before cs w.sys.calls w.slots)
    ?_ ?_ ?_ L.preinit fun _ h => h
  · rintro c cs w hc hskip ⟨made, hmade, hcalls, hstored⟩
    have hno : c.module.type ≠ coreModule ∨ c.createConf.isSome = false := by
      rcases hskip with h | h
      · exact Or.inl h
      · exact Or.inr (by rw [h]; rfl)
    rw [hooked_cons_skip hno] at hmade
    exact ⟨made, hmade, hcalls, hstored⟩
  · rintro c cs create w hc hcreate ⟨made, hmade, hcalls, -⟩ hnone
    have hleave := hconf.create c hc create hcreate w
    refine ⟨.createConf c.module.index none :: (createCalls made).reverse, ?_, ?_⟩
    · simp only [Machine.record, hleave.calls, hcalls, List.cons_append]
    · -- no handler has been called
      intro i type view p hmem
      rcases List.mem_cons.mp hmem with heq | hmem
      · cases heq
      · obtain ⟨x, -, hx⟩ := List.mem_map.mp (List.mem_reverse.mp hmem)
        cases hx
  · rintro c cs create w rv hc htype hcreate ⟨made, hmade, hcalls, hstored⟩ hsome
    have hleave := hconf.create c hc create hcreate w
    rw [hooked_cons_hook htype (by rw [hcreate]; rfl)] at hmade
    have hnodup : (made.map Prod.fst ++ c.module.index :: hooked (fun c => c.createConf.isSome)
        cs).Nodup := by
      rw [hmade]
      exact L.hooked_nodup _
    have hnew : c.module.index ∉ made.map Prod.fst := fun hmem =>
      List.disjoint_of_nodup_append hnodup hmem List.mem_cons_self
    refine ⟨made ++ [(c.module.index, rv)], ?_, ?_, (hstored.leave hleave).snoc hnew⟩
    · rw [List.map_append, List.append_assoc]
      exact hmade
    · simp only [Machine.record, hleave.calls, hcalls, createCalls, List.map_append,
        List.reverse_append]
      rfl

/-! ## 6. The parse

When the parser is entered, the slots are right.  A handler may only change what is not read for a
direct command, and every handler is called by `cw_conf_handler` with the pointer it finds, so each
is given its own; this is kept by a step of the parser and so by the parse. -/

/-- A handler that was called with `p` was given its own, in the main context. -/
def OwnSlot (mods : List CycleModule) (confCtx : Nat) (made : List (Nat × Nat)) :
    ModuleCall → Prop
  | .createConf _ _ | .initConf _ _ => False
  | .custom _ => True
  | .set i type view p => view.cmdType = mainConf → ∃ c, mods[i]? = some c ∧
    (type &&& directConf ≠ 0 →
      (∀ rv, (i, rv) ∈ made → p = rv) ∧ ((∀ rv, (i, rv) ∉ made) → p = 0)) ∧
    (type &&& directConf = 0 → p = confCtx + sizeofPointer * i)

/-- The slots hold what `create_conf` returned, and every handler was given its own. -/
def SlotsHeld (mods : List CycleModule) (confCtx : Nat) (before calls : List ModuleCall)
    (slots : Nat → Nat) : Prop :=
  ∃ made handled, made.map Prod.fst = hooked (fun c => c.createConf.isSome) mods ∧
    calls = handled ++ ((createCalls made).reverse ++ before) ∧
    (∀ e ∈ handled, OwnSlot mods confCtx made e) ∧ Stored mods confCtx made slots

theorem SlotsHeld.leave {mods : List CycleModule} {w w' : Configured Machine}
    (h : SlotsHeld mods confCtx before w.sys.calls w.slots)
    (hleave : LeavesSlots mods confCtx w w') :
    SlotsHeld mods confCtx before w'.sys.calls w'.slots := by
  obtain ⟨made, handled, hmade, hcalls, hown, hstored⟩ := h
  exact ⟨made, handled, hmade, hleave.calls.trans hcalls, hown, hstored.leave hleave⟩

/-- Confined code keeps the slots, from one parse it asks for to the next.  The induction is on the
handler. -/
theorem Act.Confined.upholds {mods : List CycleModule} :
    ∀ {a : Act (Configured Machine)} {w : Configured Machine}, a.Confined mods confCtx w →
      SlotsHeld mods confCtx before w.sys.calls w.slots →
        a.Upholds fun view w => view.Main confCtx ∧
          SlotsHeld mods confCtx before w.sys.calls w.slots
  | .ret _ _ _, _, ⟨hmain, hleave⟩, h => ⟨hmain, h.leave hleave⟩
  | .parse _ _ _ _, _, ⟨hmain, hleave, hrest⟩, h =>
    ⟨⟨hmain, h.leave hleave⟩, fun rv view args w hw =>
      Act.Confined.upholds (hrest rv view args w hw.1) hw.2⟩

/-- Every handler is given its own. -/
theorem recorded_own (hconf : Confined A L.preinit custom confCtx) :
    (cycleTable L.preinit custom).recorded.Upholds (Machine.sys A).configured
      fun view w => view.Main confCtx ∧
        SlotsHeld L.preinit confCtx before w.sys.calls w.slots := by
  refine Table.recorded_upholds ?_ ?_
  · rintro m hm cmds hcmds cmd hcmd view args w ⟨hmain, made, handled, hmade, hcalls, hown, hstored⟩
      hallowed
    obtain ⟨c, hc, rfl⟩ := List.mem_map.mp hm
    obtain ⟨i, hi⟩ := List.getElem?_of_mem hc
    have hindex := L.preinit_index hi
    have hact := hconf.set c hc cmds hcmds cmd hcmd view args
      { w with sys := w.sys.record (.set c.module.index cmd.type view
        (confPointer (Machine.sys A).configured view c.module cmd w)) } hmain hallowed
    refine Act.Confined.upholds hact ?_
    refine ⟨made, .set c.module.index cmd.type view
      (confPointer (Machine.sys A).configured view c.module cmd w) :: handled, hmade, ?_, ?_,
      hstored⟩
    · simp only [Machine.record, hcalls, List.cons_append]
    · rintro e (_ | ⟨_, he⟩)
      · intro hloc
        have hctx := hmain hloc
        refine ⟨c, hindex ▸ hi, ?_, ?_⟩
        · intro hdirect
          obtain ⟨hsome, hnone⟩ := hstored i c hi ⟨cmds, hcmds, cmd, hcmd, hdirect⟩
          have hp : confPointer (Machine.sys A).configured view c.module cmd w
              = w.slots (confCtx + sizeofPointer * i) := by
            unfold confPointer
            rw [if_pos hdirect, hctx, hindex]
            rfl
          rw [hp, hindex]
          exact ⟨hsome, hnone⟩
        · intro hdirect
          -- the location admits the command, so the third way is not taken
          unfold confPointer
          rw [hloc] at hallowed
          rw [if_neg (not_not.mpr hdirect), if_pos hallowed, hctx]
          rfl
      · exact hown e he
  · rintro handler view args w ⟨hmain, made, handled, hmade, hcalls, hown, hstored⟩
    refine Act.Confined.upholds (hconf.custom handler view args _ hmain) ?_
    refine ⟨made, .custom handler :: handled, hmade, ?_, ?_, hstored⟩
    · simp only [Machine.record, hcalls, List.cons_append]
    · rintro e (_ | ⟨_, he⟩)
      · trivial
      · exact hown e he

/-- In the words of the history. -/
theorem SlotsHeld.own {w : Configured Machine}
    (h : SlotsHeld L.preinit confCtx before w.sys.calls w.slots) :
    OwnSince L.preinit confCtx before w := by
  obtain ⟨made, handled, hmade, hcalls, hown, -⟩ := h
  refine ⟨handled ++ (createCalls made).reverse, by rw [hcalls, List.append_assoc], ?_⟩
  have hcreated : ∀ j rv, .createConf j rv ∈ handled ++ (createCalls made).reverse ↔
      ∃ p, (j, p) ∈ made ∧ rv = some p := by
    intro j rv
    rw [List.mem_append, List.mem_reverse]
    constructor
    · rintro (hmem | hmem)
      · exact (hown _ hmem).elim
      · obtain ⟨x, hx, heq⟩ := List.mem_map.mp hmem
        obtain ⟨rfl, rfl⟩ := ModuleCall.createConf.inj heq
        exact ⟨x.2, hx, rfl⟩
    · rintro ⟨p, hp, rfl⟩
      exact Or.inr (List.mem_map.mpr ⟨(j, p), hp, rfl⟩)
  intro i type view p hmem hloc
  have hset : ModuleCall.set i type view p ∈ handled := by
    rcases List.mem_append.mp hmem with hmem | hmem
    · exact hmem
    · obtain ⟨x, -, hx⟩ := List.mem_map.mp (List.mem_reverse.mp hmem)
      cases hx
  obtain ⟨c, hc, hdirect, hslot⟩ := hown _ hset hloc
  have hindex := L.preinit_index hc
  have hiff := L.mem_hooked_iff (fun c => c.createConf.isSome) hc
  refine ⟨c, hc, ?_, ?_, ?_⟩
  · intro hflag htype hhook
    have hmem := hiff.mpr ⟨htype, hhook⟩
    rw [← hmade] at hmem
    obtain ⟨⟨j, rv⟩, hrv, rfl⟩ := List.mem_map.mp hmem
    obtain rfl := (hdirect hflag).1 rv hrv
    rw [hindex]
    refine ⟨(hcreated _ _).mpr ⟨p, hrv, rfl⟩, fun rv' hrv' => ?_⟩
    obtain ⟨p', hp', rfl⟩ := (hcreated _ _).mp hrv'
    rw [(hdirect hflag).1 p' hp']
  · intro hflag hnot
    refine (hdirect hflag).2 fun rv hrv => ?_
    have hmem : i ∈ made.map Prod.fst := List.mem_map.mpr ⟨_, hrv, rfl⟩
    rw [hmade] at hmem
    obtain ⟨htype, hhook⟩ := hiff.mp hmem
    rcases hnot with h | h
    · exact h htype
    · rw [h] at hhook
      cases hhook
  · intro hflag
    rw [hindex]
    exact hslot hflag

/-- The set-up from `conf_ctx` on gives every handler its own, whether it is completed or fails. -/
theorem setUpFrom_own {depth : Nat} {old : Cycle} {host : Host}
    (hconf : Confined A L.preinit custom confCtx) :
    Setup.Leads (Reserved A host L.preinit confCtx before)
      (setUpFrom A L.preinit custom depth old confCtx)
      (fun _ => OwnSince L.preinit confCtx before) (OwnSince L.preinit confCtx before) := by
  have hnone : ∀ w : Configured Machine, w.sys.calls = before →
      OwnSince L.preinit confCtx before w := by
    intro w hcalls
    exact ⟨[], hcalls, fun i type view p hmem => absurd hmem List.not_mem_nil⟩
  have hmain : ∀ w : Configured Machine,
      StoredBut L.preinit confCtx before [] w.sys.calls w.slots →
        (mainView confCtx).Main confCtx ∧
          SlotsHeld L.preinit confCtx before w.sys.calls w.slots := by
    rintro w ⟨made, hmade, hcalls, hstored⟩
    rw [show hooked (fun c => c.createConf.isSome) [] = [] from rfl, List.append_nil] at hmade
    exact ⟨fun _ => rfl, made, [], hmade, hcalls, by simp, hstored⟩
  have hloop : Setup.Leads (fun w => Reserved A host L.preinit confCtx before w ∧
      Cleared L.preinit confCtx w.slots) (createConfs confCtx L.preinit)
      (fun _ w => StoredBut L.preinit confCtx before [] w.sys.calls w.slots)
      (OwnSince L.preinit confCtx before) := by
    refine .of_run fun w ⟨hres, hzero⟩ => (createConfs_stored hconf).run ?_
    refine ⟨[], rfl, hres.calls, fun i c hc _ => ⟨?_, fun _ => hzero i c hc⟩⟩
    exact fun rv hmem => absurd hmem List.not_mem_nil
  have hstored : ∀ w : Configured Machine,
      StoredBut L.preinit confCtx before [] w.sys.calls w.slots →
        OwnSince L.preinit confCtx before w := fun w h => (hmain w h).2.own
  have hall : Setup.Leads (Reserved A host L.preinit confCtx before)
      (setUpFrom A L.preinit custom depth old confCtx)
      (fun cycle w => cycle.confCtx = confCtx ∧ ∃ view : View, view.Main confCtx ∧
        SlotsHeld L.preinit confCtx before w.sys.calls w.slots)
      (OwnSince L.preinit confCtx before) := setUpFrom_leads depth old
    (K := fun view w => view.Main confCtx ∧
      SlotsHeld L.preinit confCtx before w.sys.calls w.slots)
    (fun w hw => ⟨⟨hw.held, hw.mem, hw.calls⟩, Cleared.zero L confCtx w.slots⟩)
    (Reserved.file hnone) (Reserved.modules hnone) hloop
    (createArgs_frame (StoredBut L.preinit confCtx before []) hstored)
    (createTemp_frame (StoredBut L.preinit confCtx before []) hstored) hmain
    (fun _ _ hw => hw.2.own)
    (fun view => frame_disciplined A fun calls slots => view.Main confCtx ∧
      SlotsHeld L.preinit confCtx before calls slots)
    (recorded_own hconf)
  refine .of_run fun w hw => ⟨fun cycle w' hrun => ?_, (hall.run hw).error⟩
  obtain ⟨-, view, -, hheld⟩ := (hall.run hw).ok cycle w' hrun
  exact hheld.own

/-- In every call, every handler called in the main context is given its own. -/
theorem initCycle_own {depth : Nat} {old : Cycle} {w₀ : Configured Host}
    (hheap : w₀.sys.heap.Ok) (hkernel : w₀.sys.kernel.Ok)
    (hconf : ∀ confCtx, confCtxAt A L.preinit w₀ = some confCtx →
      Confined A L.preinit custom confCtx) :
    ∃ new, (initCycle A L.preinit custom depth old w₀).calls = new ++ w₀.sys.calls ∧
      (confCtxAt A L.preinit w₀ = none → new = []) ∧
      ∀ confCtx, confCtxAt A L.preinit w₀ = some confCtx →
        SetsOwn L.preinit confCtx new := by
  have hrest : ∀ {pool heap confCtx w₁}, confCtxAt A L.preinit w₀ = some confCtx →
      createPool cyclePoolSize w₀.sys.heap = (some pool, heap) →
      allocConfCtx A L.preinit (w₀.withPool pool heap) = .ok confCtx w₁ →
      Setup.Ends (fun _ => OwnSince L.preinit confCtx w₀.sys.calls)
        (OwnSince L.preinit confCtx w₀.sys.calls)
        (setUpFrom A L.preinit custom depth old confCtx w₁) := by
    intro pool heap confCtx w₁ hsome hpool halloc
    exact (setUpFrom_own (hconf confCtx hsome)).run (.start hheap hkernel hpool halloc)
  have hfrom : ∀ {confCtx calls} {w₂ : Configured Machine},
      confCtxAt A L.preinit w₀ = some confCtx → calls = w₂.sys.calls →
      OwnSince L.preinit confCtx w₀.sys.calls w₂ →
      ∃ new, calls = new ++ w₀.sys.calls ∧ (confCtxAt A L.preinit w₀ = none → new = []) ∧
        ∀ confCtx, confCtxAt A L.preinit w₀ = some confCtx → SetsOwn L.preinit confCtx new := by
    rintro confCtx calls w₂ hsome rfl ⟨new, hnew, hown⟩
    refine ⟨new, hnew, ?_, ?_⟩
    · intro hnone
      rw [hsome] at hnone
      cases hnone
    · intro confCtx' hsome'
      obtain rfl := Option.some.inj (hsome.symm.trans hsome')
      exact hown
  have hinit := initCycle_run A L.preinit custom depth old w₀
  generalize initCycle A L.preinit custom depth old w₀ = r at hinit ⊢
  cases hinit with
  | early hnone hcalls =>
    refine ⟨[], hcalls, fun _ => rfl, ?_⟩
    intro confCtx hsome
    rw [hsome] at hnone
    cases hnone
  | stopped hsome hpool halloc hrun hcalls =>
    exact hfrom hsome hcalls ((hrest hsome hpool halloc).error _ _ hrun)
  | closed hsome hpool halloc hrun hcalls =>
    exact hfrom hsome hcalls ((hrest hsome hpool halloc).ok _ _ hrun)
  | done hsome hpool halloc hrun hcalls _ =>
    exact hfrom hsome hcalls ((hrest hsome hpool halloc).ok _ _ hrun)

end

/-! ## 7. The slots are isolated -/

/-- **Every module has a slot of its own.**  `cw_cycle_modules` fails only when its allocation
does, and the array of a cycle is the modules and a `NULL`; the indices are distinct and inside
`conf_ctx`; and in every call of `cw_init_cycle` a handler called in the main context is given its
own module's configuration or slot. -/
theorem slots_isolated (A : Alignment) (L : ModuleTable)
    {custom : Nat → View → List Word → Configured Machine → Act (Configured Machine)}
    (depth : Nat) (old : Cycle) {w₀ : Configured Host} (hheap : w₀.sys.heap.Ok)
    (hkernel : w₀.sys.kernel.Ok)
    (hconf : ∀ confCtx, confCtxAt A L.preinit w₀ = some confCtx →
      Confined A L.preinit custom confCtx) :
    (∀ p w m, w.sys.call A (.pcalloc (wmul (wadd (wadd L.preinit.length maxDynamicModules) 1)
        sizeofPointer)) = (some p, m) →
      ∃ w', cycleModules A (wadd L.preinit.length maxDynamicModules) L.preinit w = .ok p w') ∧
    (∀ p w w', cycleModules A (wadd L.preinit.length maxDynamicModules) L.preinit w = .ok p w' →
      (List.range (L.modules.length + 1)).map (fun i => w'.slots (p + sizeofPointer * i))
        = L.modules.map CycleModule.self ++ [0]) ∧
    (L.preinit.map fun c => c.module.index).Nodup ∧
    (∀ c ∈ L.preinit, sizeofPointer * (c.module.index + 1) ≤ confCtxSize L.preinit) ∧
    ∃ new, (initCycle A L.preinit custom depth old w₀).calls = new ++ w₀.sys.calls ∧
      (confCtxAt A L.preinit w₀ = none → new = []) ∧
      ∀ confCtx, confCtxAt A L.preinit w₀ = some confCtx → SetsOwn L.preinit confCtx new := by
  refine ⟨?_, fun p w w' h => cycleModules_listed h, ?_, ?_, initCycle_own hheap hkernel hconf⟩
  · intro p w m hcall
    obtain ⟨slots, hrun, -⟩ := cycleModules_run L.preinit hcall
    exact ⟨_, hrun⟩
  · rw [L.preinit_indices]
    exact List.nodup_range
  · intro c hc
    obtain ⟨i, hi⟩ := List.getElem?_of_mem hc
    rw [L.preinit_index hi]
    exact L.slot_fits hi

section
variable {mods : List CycleModule} {confCtx : Nat}

theorem coreCreateConf_leaves (A : Alignment) (w : Configured Machine) :
    LeavesSlots mods confCtx w (coreCreateConf A w).2 := by
  refine ⟨((cwModules_use A 0).create _ List.mem_cons_self _ rfl w).calls_eq, ?_⟩
  intro _ _ _ _
  unfold coreCreateConf
  split <;> rfl

theorem setWorkerProcesses_confined {ncpu : Int} {view : View} (hmain : view.Main confCtx)
    (args : List Word) (p : Nat) (w : Configured Machine) :
    (setWorkerProcesses ncpu view args p w).Confined mods confCtx w := by
  simp only [setWorkerProcesses]
  split
  · exact ⟨hmain, rfl, fun _ _ _ _ => rfl⟩
  · split
    · exact ⟨hmain, rfl, fun _ _ _ _ => rfl⟩
    · split <;> exact ⟨hmain, rfl, fun _ _ _ _ => rfl⟩

/-- The modules of the program leave the slots alone, as is asked of module code. -/
theorem cwModules_confined (A : Alignment) (ncpu : Int) (confCtx : Nat) :
    Confined A (cwModules A ncpu) noCustom confCtx where
  create := by
    intro c hc create hcreate w
    obtain rfl := List.mem_singleton.mp hc
    obtain rfl := Option.some.inj hcreate
    exact coreCreateConf_leaves A w
  set := by
    intro c hc cmds hcmds cmd hcmd view args w hmain _
    obtain rfl := List.mem_singleton.mp hc
    obtain rfl := Option.some.inj hcmds
    obtain rfl := List.mem_singleton.mp hcmd
    exact setWorkerProcesses_confined hmain args _ w
  custom handler view args w hmain := ⟨hmain, rfl, fun _ _ _ _ => rfl⟩

end

/-- The sample module, and the modules of the program behind it. -/
def sampleModules : ModuleTable where
  modules := sampleModule :: cwModules .word 4
  names := ["sample_module", "cw_core_module"]
  distinct := by decide
  terminated := by
    intro c hc
    rcases List.mem_cons.mp hc with rfl | hc
    · exact (by decide : 0x6100 ≠ 0)
    · exact (cwModuleTable .word 4).terminated c hc
  named := rfl
  fits := by
    show (2 + maxDynamicModules + 1) * sizeofPointer < wordSize
    decide

/-- The file `pid a;worker_processes 2;user a;`. -/
def modulesFile : List UInt8 :=
  pidText ++ [Ch.space, 97, Ch.semicolon] ++ workersFile 50
    ++ (userText ++ [Ch.space, 97, Ch.semicolon])

/-- The calls into the two modules, the last one first, with `conf_ctx` at `0x200000`. -/
def sampleCalls : List ModuleCall :=
  [.set 0 (mainConf ||| confTake1) (mainView 0x200000) 0x200000,
   .set 1 (mainConf ||| directConf ||| confTake1) (mainView 0x200000) 0x1000e8,
   .set 0 (mainConf ||| directConf ||| confTake1) (mainView 0x200000) 0x7100,
   .createConf 1 (some 0x1000e8),
   .createConf 0 (some 0x7100)]

/-- So do the two modules together. -/
theorem sampleModules_confined (confCtx : Nat) :
    Confined .word sampleModules.preinit noCustom confCtx where
  create := by
    intro c hc create hcreate w
    rcases List.mem_cons.mp hc with rfl | hc
    · obtain rfl := Option.some.inj hcreate
      exact ⟨rfl, fun _ _ _ _ => rfl⟩
    · obtain rfl := List.mem_singleton.mp hc
      obtain rfl := Option.some.inj hcreate
      exact coreCreateConf_leaves .word w
  set := by
    intro c hc cmds hcmds cmd hcmd view args w hmain _
    rcases List.mem_cons.mp hc with rfl | hc
    · obtain rfl := Option.some.inj hcmds
      rcases List.mem_cons.mp hcmd with rfl | hcmd
      · exact ⟨hmain, rfl, fun _ _ _ _ => rfl⟩
      · obtain rfl := List.mem_singleton.mp hcmd
        exact ⟨hmain, rfl, fun _ _ _ _ => rfl⟩
    · obtain rfl := List.mem_singleton.mp hc
      obtain rfl := Option.some.inj hcmds
      obtain rfl := List.mem_singleton.mp hcmd
      exact setWorkerProcesses_confined hmain args _ w
  custom handler view args w hmain := ⟨hmain, rfl, fun _ _ _ _ => rfl⟩

/-- The statement for two modules, and a file with a directive of either kind: the array is made,
and both direct commands are given their own module's configuration. -/
theorem slots_isolated_sample :
    (∃ w p w', cycleModules .word (wadd 2 maxDynamicModules) sampleModules.preinit w = .ok p w' ∧
      (List.range 3).map (fun i => w'.slots (p + sizeofPointer * i)) = [0x6100, 0x6000, 0]) ∧
    (initCycle .word sampleModules.preinit noCustom 2 sampleCycle (fileHost modulesFile)).calls
      = sampleCalls ∧
    SetsOwn sampleModules.preinit 0x200000 sampleCalls := by
  obtain ⟨hmakes, hlisted, -, -, new, hnew, -, hown⟩ := slots_isolated .word sampleModules 2
    sampleCycle (fileHost_ok modulesFile).1 (fileHost_ok modulesFile).2
    fun confCtx _ => sampleModules_confined confCtx
  refine ⟨?_, ?_⟩
  · -- the pool is that of `cw_init_cycle`, and nothing has been taken from it
    have hcall : (match createPool cyclePoolSize (fileHost []).sys.heap with
        | (some pool, heap) => (((fileHost []).withPool pool heap).sys.call .word
            (.pcalloc (wmul (wadd (wadd 2 maxDynamicModules) 1) sizeofPointer))).1
        | (none, _) => none) = some 0x200000 := by decide +kernel
    split at hcall
    · rename_i pool heap _
      obtain ⟨w', hrun⟩ := hmakes 0x200000 ((fileHost []).withPool pool heap) _ (Prod.ext hcall rfl)
      exact ⟨_, _, w', hrun, hlisted _ _ _ hrun⟩
    · cases hcall
  · have hcalls : (initCycle .word sampleModules.preinit noCustom 2 sampleCycle
        (fileHost modulesFile)).calls = sampleCalls := by decide +kernel
    have hctx : confCtxAt .word sampleModules.preinit (fileHost modulesFile) = some 0x200000 := by
      decide +kernel
    have hsame : new = sampleCalls := by
      rw [← hcalls, hnew]
      exact (List.append_nil new).symm
    exact ⟨hcalls, hsame ▸ hown 0x200000 hctx⟩

end Capwap
