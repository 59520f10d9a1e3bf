/-
# Which configuration files the program accepts

With the modules of the program, the tree of a file that runs has one line at most
(`coreRuns_iff`): a second `worker_processes` is a duplicate, and nothing else is known.  So the
files that are accepted are blank, up to comments, or they have that one line, and its value is the
number of workers (`coreFile_iff`).
-/
import Capwap.Conf.Meaning
import Capwap.Conf.CoreText

namespace Capwap

section
variable {τ : Type} {S : Sys τ} {ncpu : Int} {p : Nat}

/-! ## 1. The one directive

In the tree of a file, a line fits a command, its handler is given a pointer, and what it returns
decides.  For the core module all three are settled here: the command is `worker_processes`, the
pointer is that of the record, and the value is read by `readValue`. -/

/-- The handler accepts a value once, and sets it. -/
theorem setWorkerProcesses_ret {view : View} {w w' : Configured τ} {name value : List UInt8} :
    setWorkerProcesses ncpu view [Word.of name, Word.of value] p w = .ret .ok view w' ↔
      (w.core p).workerProcesses = confUnset ∧
        ∃ v, readValue ncpu value = some v ∧ w' = w.setWorkers p v := by
  have hvalue : [Word.of name, Word.of value].getD 1 ⟨0, []⟩ = Word.of value := rfl
  unfold setWorkerProcesses readValue
  simp only [hvalue]
  by_cases hunset : (w.core p).workerProcesses = confUnset
  · simp only [hunset, ne_eq, not_true_eq_false, if_false, true_and]
    by_cases hauto : cStr (Word.of value).data = autoText
    · simp only [hauto, if_true, Act.ret.injEq, true_and, Option.some.injEq, exists_eq_left']
      exact eq_comm
    · simp only [hauto, if_false, Configured.setWorkers_core]
      by_cases herr : cwAtoi (Word.of value).data (Word.of value).len = cwError
      · simp [herr]
      · simp only [herr, if_false, Act.ret.injEq, true_and, Option.some.injEq, exists_eq_left']
        exact eq_comm
  · simp [hunset]

/-- The view of the main file, with the record of the core module at `p`. -/
structure CoreView (p : Nat) (view : View) (w : Configured τ) : Prop where
  moduleType : view.moduleType = coreModule
  cmdType : view.cmdType = mainConf
  slot : w.slots view.ctx = p

/-- The handler is given the record of the core module: the pointer is loaded from its slot. -/
theorem corePointer {view : View} {w w₁ : Configured τ} {cmd : Command (Configured τ)}
    (h : CoreView p view w) (hslots : w₁.slots = w.slots) (hcmd : cmd ∈ coreCommands ncpu) :
    confPointer S.configured view (cwCoreModule ncpu 0) cmd w₁ = p := by
  obtain rfl := List.mem_singleton.mp hcmd
  have hdirect : (mainConf ||| directConf ||| confTake1) &&& directConf ≠ 0 := by decide
  rw [confPointer, if_pos hdirect]
  exact (congrFun hslots _).trans h.slot

/-- A line that fits and is accepted. -/
theorem coreLine {view : View} {w w₁ w' : Configured τ} {words : List (List UInt8)}
    {m : Module (Configured τ)} {cmd : Command (Configured τ)} (h : CoreView p view w)
    (hw : w₁.parts = w.parts) (hfits : Fits (coreTable ncpu) view words .ok m cmd)
    (hset : cmd.set view (words.map Word.of) (confPointer S.configured view m cmd w₁) w₁
      = .ret .ok view w') :
    (w.core p).workerProcesses = confUnset ∧ ∃ value v, words = [workerProcessesText, value] ∧
      readValue ncpu value = some v ∧ w'.parts = (w.setWorkers p v).parts := by
  obtain ⟨hslots, hcore⟩ := Prod.mk.inj hw
  obtain ⟨⟨value, rfl⟩, rfl, hcmd⟩ := (coreTable_fits h.moduleType h.cmdType).mp hfits
  rw [corePointer h hslots hcmd] at hset
  obtain rfl := List.mem_singleton.mp hcmd
  obtain ⟨hunset, v, hvalue, rfl⟩ := setWorkerProcesses_ret.mp hset
  rw [hcore] at hunset
  refine ⟨hunset, value, v, rfl, hvalue, ?_⟩
  simp only [Configured.parts, Configured.setWorkers, hslots, hcore]

/-- No line starts a block. -/
theorem coreTable_noBlock {view : View} {words : List (List UInt8)} {m : Module (Configured τ)}
    {cmd : Command (Configured τ)} : ¬ Fits (coreTable ncpu) view words .blockStart m cmd := by
  rintro ⟨⟨name, tail, -, hfirst⟩, hterminator, -⟩
  have hmem := hfirst.mem
  simp only [Table.commands, coreTable, cwCoreModule, coreCommands, List.flatMap_cons,
    List.flatMap_nil, Option.getD_some, List.map_cons, List.map_nil, List.append_nil,
    List.mem_singleton, Prod.mk.injEq] at hmem
  have hblock := hterminator.mpr rfl
  have hsimple : (mainConf ||| directConf ||| confTake1) &&& confBlock = 0 := by decide
  rw [hmem.2] at hblock
  exact hblock hsimple

/-! ## 2. Trees

A tree that runs has no blocks, since no command of the module starts one, and no second line,
since the value is set by then. -/

/-- Behind the directive nothing runs. -/
theorem coreRuns_set {view : View} {w : Configured τ}
    {y : (Nat → Nat) × (Nat → CoreConf)} {items : List Item} (h : CoreView p view w)
    (hset : (w.core p).workerProcesses ≠ confUnset)
    (hruns : Runs S.configured (coreTable ncpu) Configured.parts view w.parts items y) :
    items = [] ∧ y = w.parts := by
  generalize hx : w.parts = x at hruns
  cases hruns with
  | nil => exact ⟨rfl, rfl⟩
  | simple hfits hline hrest =>
    obtain ⟨hunset, -⟩ := coreLine h hx.symm hfits hline
    exact absurd hunset hset
  | block hfits _ _ _ _ => exact absurd hfits coreTable_noBlock

/-- The trees that run, and what they set: the empty one, and the one with a single line that gives
a value. -/
theorem coreRuns_iff (hncpu : 1 ≤ ncpu) {view : View} {w : Configured τ}
    {y : (Nat → Nat) × (Nat → CoreConf)} {items : List Item} (h : CoreView p view w)
    (hunset : (w.core p).workerProcesses = confUnset) :
    Runs S.configured (coreTable ncpu) Configured.parts view w.parts items y ↔
      (items = [] ∧ y = w.parts) ∨ ∃ value v, items = [.simple [workerProcessesText, value]] ∧
        readValue ncpu value = some v ∧ y = (w.setWorkers p v).parts := by
  constructor
  · intro hruns
    generalize hx : w.parts = x at hruns
    cases hruns with
    | nil => exact Or.inl ⟨rfl, rfl⟩
    | block hfits _ _ _ _ => exact absurd hfits coreTable_noBlock
    | simple hfits hline hrest =>
      obtain ⟨-, value, v, rfl, hvalue, hw'⟩ := coreLine h hx.symm hfits hline
      rw [hw'] at hrest
      have hview : CoreView p view (w.setWorkers p v) := ⟨h.moduleType, h.cmdType, h.slot⟩
      have hdone : ((w.setWorkers p v).core p).workerProcesses ≠ confUnset := by
        rw [Configured.setWorkers_core]
        exact readValue_ne_unset hncpu hvalue
      obtain ⟨rfl, rfl⟩ := coreRuns_set hview hdone hrest
      exact Or.inr ⟨value, v, rfl, hvalue, rfl⟩
  · rintro (⟨rfl, rfl⟩ | ⟨value, v, rfl, hvalue, rfl⟩)
    · exact .nil
    · have hcmd : _ ∈ (coreCommands ncpu : List (Command (Configured τ))) :=
        List.mem_singleton_self _
      refine .simple ((coreTable_fits h.moduleType h.cmdType).mpr ⟨⟨value, rfl⟩, rfl, hcmd⟩) ?_
        .nil
      rw [corePointer h rfl hcmd]
      exact setWorkerProcesses_ret.mpr ⟨hunset, v, hvalue, rfl⟩

/-! ## 3. Files -/

/-- The files the core module accepts, with the number of workers each configures.  As in a
parameter, nothing behind a NUL in `auto` counts. -/
inductive CoreFile (ncpu : Int) (content : List UInt8) : Int → Prop
  | none (h : Written .fileDone [] content) : CoreFile ncpu content confUnset
  | one {value : List UInt8} {v : Int}
      (h : Written .fileDone [.simple [workerProcessesText, value]] content)
      (hvalue : CoreValue ncpu value v ∨ (NulAuto value ∧ v = ncpu)) : CoreFile ncpu content v

variable {fd : Int} {content : List UInt8}

/-- **Which files the program accepts**: a file is accepted, with so many workers, just when it is
blank or has the one directive, with a value that says so, and no report is due. -/
theorem coreFile_iff (hS : S.Allocates) (hopen : S.Opens fd content) (hncpu : 1 ≤ ncpu)
    {cf : Cf (Configured τ)} (hready : CoreReady p cf) (hunset : cf.workers p = confUnset)
    (name : List UInt8) {n : Nat} (hn : content.length < n) (v : Int) :
    ((confParse S.configured (coreTable ncpu) n (some name) cf).1 = .ok () ∧
        (confParse S.configured (coreTable ncpu) n (some name) cf).2.workers p = v) ↔
      CoreFile ncpu content v ∧ ¬ Late content := by
  obtain ⟨n, rfl⟩ : ∃ d, n = d + 1 := ⟨n - 1, by omega⟩
  have hview : CoreView p cf.view cf.world := ⟨hready.moduleType, hready.cmdType, hready.slot⟩
  have hall := Sys.configured_allocates hS
  have hopens := Sys.configured_opens hopen
  have hunseen := Sys.configured_unseen S
  constructor
  · rintro ⟨hok, rfl⟩
    obtain ⟨items, hwritten, hlate, hruns⟩ :=
      confParse_runs hall hopens coreTable_regular hunseen hready.handler name hok
    refine ⟨?_, hlate⟩
    rcases (coreRuns_iff hncpu hview hunset).mp hruns with ⟨rfl, hy⟩ | ⟨value, v, rfl, hvalue, hy⟩
    · have hworkers := congrFun (Prod.mk.inj hy).2 p
      rw [Cf.workers, hworkers, show (cf.world.core p).workerProcesses = confUnset from hunset]
      exact .none hwritten
    · have hworkers := congrFun (Prod.mk.inj hy).2 p
      rw [Cf.workers, hworkers, Configured.setWorkers_core]
      exact .one hwritten (readValue_iff.mp hvalue)
  · rintro ⟨hfile, hlate⟩
    have hrun : ∀ {items y}, Written .fileDone items content →
        Runs S.configured (coreTable ncpu) Configured.parts cf.view cf.world.parts items y →
        (y.2 p).workerProcesses = v →
        (confParse S.configured (coreTable ncpu) (n + 1) (some name) cf).1 = .ok () ∧
          (confParse S.configured (coreTable ncpu) (n + 1) (some name) cf).2.workers p = v := by
      intro items y hwritten hruns hy
      obtain ⟨hok, hparts⟩ := hruns.confParse hall hopens coreTable_regular hunseen
        (coreTable_sees S) hready.handler name (show content.length ≤ n by omega) hwritten hlate
      refine And.intro hok ?_
      rw [Cf.workers, ← hy, ← hparts]
      rfl
    cases hfile with
    | none hwritten => exact hrun hwritten .nil hunset
    | @one value v hwritten hvalue =>
      refine hrun hwritten ((coreRuns_iff hncpu hview hunset).mpr
        (Or.inr ⟨value, v, rfl, readValue_iff.mpr hvalue, rfl⟩)) ?_
      show (((cf.world.setWorkers p v).core) p).workerProcesses = v
      rw [Configured.setWorkers_core]

end

/-- The statement for `worker_processes 12;` behind a comment. -/
theorem coreFile_iff_sample : CoreFile 4 sampleFile 12 ∧ ¬ Late sampleFile :=
  (coreFile_iff (Sys.plain_allocates _) (Sys.plain_opens sampleFile) (by decide)
    (show CoreReady 1 sampleCore from ⟨rfl, rfl, rfl, rfl⟩) rfl []
    (show sampleFile.length < 30 by decide) 12).mp ⟨rfl, rfl⟩

end Capwap
