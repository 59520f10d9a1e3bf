/-
# A parse gives back what it takes

`cf->conf_file` is a pointer, to a variable of the call that opened the file: a nested call points
it elsewhere and puts it back, while the file around it waits with half a buffer.  `ptrParse` is the
parser with the pointer and the variables of the calls under way (`locals`), where `confParse` keeps
the current file as a value.

The two do the same, and a call leaves alone the variables of the others: those of the calls around
it are what they were, and a call with a name leaves all of them so (`ptrParse_sim`).  With the log
of `Conf/Trace.lean` this says that a parse is balanced on every exit, whichever steps fail and
however deep it is nested (`confParse_balanced`).
-/
import Capwap.Conf.Trace

namespace Capwap

/-! ## 1. The parser with its pointer

Each call that opens a file has a variable for it on its stack frame, and `cf->conf_file` points to
one of these.  The list `locals` is the stack, the oldest first, and the pointer is an index into
it.  The functions are those of `Conf/Parse.lean` with every access to the current file going
through the pointer. -/

/-- `cf`, with `conf_file` as a pointer to one of the `conf_file` variables of the calls under
way. -/
structure PtrCf (σ : Type) where
  args : List Word
  confFile : Option Nat
  locals : List ConfFile
  view : View
  world : σ

section
variable {σ : Type}

/-- `cf`, with `*cf->conf_file`. -/
def PtrCf.deref (f : PtrCf σ) : Cf σ :=
  { args := f.args, conf := f.confFile.bind (f.locals[·]?), view := f.view, world := f.world }

/-- `cf` is written back, through the pointer. -/
def PtrCf.put (f : PtrCf σ) (cf : Cf σ) : PtrCf σ :=
  { args := cf.args
    confFile := f.confFile
    locals :=
      match f.confFile, cf.conf with
      | some p, some conf => f.locals.set p conf
      | _, _ => f.locals
    view := cf.view
    world := cf.world }

/-- A call has its variable, and points to it:
`prev = cf->conf_file; cf->conf_file = &conf_file;`. -/
def PtrCf.enter (f : PtrCf σ) (conf : ConfFile) (w : σ) : PtrCf σ :=
  { f with confFile := some f.locals.length, locals := f.locals ++ [conf], world := w }

/-- The parser, as the functions it calls see it. -/
abbrev PtrParser (σ : Type) : Type :=
  Option (List UInt8) → PtrCf σ → Except ParseError Unit × PtrCf σ

/-- A handler runs to its end. -/
def Act.runPtr (parse : PtrParser σ) : Act σ → PtrCf σ → Rv × PtrCf σ
  | .ret rv view w, f => (rv, { f with view := view, world := w })
  | .parse filename view w k, f =>
    let r := parse filename { f with view := view, world := w }
    (k (Rv.of r.1) r.2.view r.2.args r.2.world).runPtr parse r.2

/-- One round of the loop. -/
def ptrStep (S : Sys σ) (T : Table σ) (parse : PtrParser σ) (type : ParseType) (f : PtrCf σ) :
    Step (PtrCf σ) (Except ParseError Unit × PtrCf σ) :=
  match f.deref.conf with
  | none => .done (.error .noFile, f)
  | some conf =>
    match roundHead S T type conf f.deref with
    | .done r => .done (r.1, f.put r.2)
    | .call a cf back =>
      let r := a.runPtr parse (f.put cf)
      match back r.1 r.2.deref with
      | .next _ => .next r.2
      | .done res => .done (res.1, r.2)

def ptrLoop (S : Sys σ) (T : Table σ) (parse : PtrParser σ) (type : ParseType) (f : PtrCf σ) :
    Except ParseError Unit × PtrCf σ :=
  match Loop.run (ptrStep S T parse type) ((f.deref.conf.map ConfFile.unread).getD 0 + 1) f with
  | some r => r
  | none => (.error .stuck, f)

/-- The part after the label `done` for a file.  The pointer is put back, and with the call its
variable is gone. -/
def ptrClose (S : Sys σ) (fd : Int) (buf : Option Nat) (prev : Option Nat) (depth : Nat)
    (r : Except ParseError Unit × PtrCf σ) : Except ParseError Unit × PtrCf σ :=
  let w := match buf with
    | some p => S.free p r.2.world
    | none => r.2.world
  match S.closeFile fd w with
  | (true, w) =>
    (r.1, { r.2 with confFile := prev, locals := r.2.locals.take depth, world := w })
  | (false, w) =>
    (.error .closeFailed,
      { r.2 with confFile := prev, locals := r.2.locals.take depth, world := w })

/-- `cw_conf_parse`, for calls nested at most so many deep. -/
def ptrParse (S : Sys σ) (T : Table σ) : Nat → PtrParser σ
  | 0, _, f => (.error .stuck, f)
  | n + 1, none, f =>
    match f.deref.conf with
    | none => (.error .noFile, f)
    | some conf =>
      ptrLoop S T (ptrParse S T n) (if conf.file.fd ≠ invalidFile then .block else .param) f
  | n + 1, some filename, f =>
    let fd := S.openFile filename f.world
    if fd.1 = invalidFile then (.error .openFailed, { f with world := fd.2 })
    else
      let info := S.fdInfo fd.1 fd.2
      match S.alloc confBuffer info.2 with
      | (none, w) =>
        ptrClose S fd.1 none f.confFile f.locals.length
          (.error .noBuffer, f.enter (.opened fd.1 info.1.2) w)
      | (some buf, w) =>
        ptrClose S fd.1 (some buf) f.confFile f.locals.length
          (ptrLoop S T (ptrParse S T n) .file (f.enter (.opened fd.1 info.1.2) w))

/-! ## 2. It is the parser

The invariant is about two states of the pointer program: from one to the other the pointer is the
same, and only the variable it points to has changed (`Own`).  A nested call with a name adds a
variable, works on that one, and takes it away again (`Inner`), so for the call around it nothing
has happened. -/

/-- The pointer points to a variable. -/
def PtrCf.Valid (f : PtrCf σ) : Prop := ∃ p, f.confFile = some p ∧ p < f.locals.length

/-- Between the two states the pointer is the same, and no variable but its own has changed. -/
structure Own (f g : PtrCf σ) : Prop where
  confFile : g.confFile = f.confFile
  length : g.locals.length = f.locals.length
  others : ∀ q, f.confFile ≠ some q → g.locals[q]? = f.locals[q]?

theorem Own.refl (f : PtrCf σ) : Own f f := ⟨rfl, rfl, fun _ _ => rfl⟩

theorem Own.trans {f g h : PtrCf σ} (hfg : Own f g) (hgh : Own g h) : Own f h where
  confFile := hgh.confFile.trans hfg.confFile
  length := hgh.length.trans hfg.length
  others q hq := (hgh.others q (hfg.confFile ▸ hq)).trans (hfg.others q hq)

theorem Own.valid {f g : PtrCf σ} (h : Own f g) (hf : f.Valid) : g.Valid := by
  obtain ⟨p, hp, hlt⟩ := hf
  exact ⟨p, h.confFile.trans hp, h.length ▸ hlt⟩

/-- Writing through the pointer. -/
theorem PtrCf.put_deref {f : PtrCf σ} (hf : f.Valid) (cf : Cf σ) {conf : ConfFile}
    (hconf : cf.conf = some conf) : (f.put cf).deref = cf ∧ Own f (f.put cf) := by
  obtain ⟨p, hp, hlt⟩ := hf
  have hset : (f.put cf).locals = f.locals.set p conf := by
    simp only [PtrCf.put, hp, hconf]
  refine ⟨?_, rfl, by rw [hset, List.length_set], ?_⟩
  · have hget : (f.put cf).deref.conf = cf.conf := by
      simp only [PtrCf.deref, PtrCf.put, hp, hconf, Option.bind_some]
      rw [List.getElem?_set_self hlt]
    cases cf
    simp only [PtrCf.deref, PtrCf.put] at hget ⊢
    rw [hget]
  · intro q hq
    rw [hset, List.getElem?_set_ne]
    rintro rfl
    exact hq hp

variable {S : Sys σ} {T : Table σ} {parse : Parser σ} {ptr : PtrParser σ} {f : PtrCf σ}

/-- The two parsers do the same, and a call leaves the other variables alone. -/
def PtrSim (ptr : PtrParser σ) (parse : Parser σ) : Prop :=
  ∀ filename f, f.Valid → (ptr filename f).1 = (parse filename f.deref).1 ∧
    (ptr filename f).2.deref = (parse filename f.deref).2 ∧ Own f (ptr filename f).2

/-- The induction is on the handler. -/
theorem Act.runPtr_sim (hparse : PtrSim ptr parse) : ∀ (a : Act σ) (f : PtrCf σ), f.Valid →
    (a.runPtr ptr f).1 = (a.run parse f.deref).1 ∧
      (a.runPtr ptr f).2.deref = (a.run parse f.deref).2 ∧ Own f (a.runPtr ptr f).2 := by
  intro a
  induction a with
  | ret rv view w =>
    intro f _
    exact ⟨rfl, rfl, rfl, rfl, fun _ _ => rfl⟩
  | parse filename view w k ih =>
    intro f hf
    obtain ⟨hrc, hcf, hown⟩ := hparse filename { f with view := view, world := w } hf
    have hown' : Own f (ptr filename { f with view := view, world := w }).2 :=
      ⟨hown.confFile, hown.length, hown.others⟩
    have hcf' : (ptr filename { f with view := view, world := w }).2.deref
        = (parse filename { f.deref with view := view, world := w }).2 := hcf
    have hrc' : (ptr filename { f with view := view, world := w }).1
        = (parse filename { f.deref with view := view, world := w }).1 := hrc
    simp only [Act.runPtr, Act.run]
    rw [← hcf', ← hrc']
    obtain ⟨h1, h2, h3⟩ := ih _ _ _ _ _ (hown'.valid hf)
    exact ⟨h1, h2, hown'.trans h3⟩

/-- Two states at the head of a round; `f` is that at the entry. -/
def LoopSim (f : PtrCf σ) (g : PtrCf σ) (cf : Cf σ) : Prop := g.deref = cf ∧ Own f g

/-- Two results of a loop. -/
def LoopEndSim (f : PtrCf σ) (r : Except ParseError Unit × PtrCf σ)
    (r' : Except ParseError Unit × Cf σ) : Prop := r.1 = r'.1 ∧ r.2.deref = r'.2 ∧ Own f r.2

theorem ptrStep_sim (hparse : PtrSim ptr parse) (hf : f.Valid) (type : ParseType) (g : PtrCf σ)
    (cf : Cf σ) (h : LoopSim f g cf) :
    Loop.StepRel (LoopSim f) (LoopEndSim f) (ptrStep S T ptr type g)
      (parseStep S T parse type cf) := by
  obtain ⟨rfl, hown⟩ := h
  have hg := hown.valid hf
  unfold ptrStep
  cases hconf : g.deref.conf with
  | none =>
    unfold parseStep
    simp only [hconf]
    exact .done ⟨rfl, rfl, hown⟩
  | some conf =>
    rw [parseStep_eq S T parse type hconf]
    have hcomes := tokenHead_comes S T type (readToken S conf g.deref.world).rc
      (g.deref.took (readToken S conf g.deref.world))
    have hput := PtrCf.put_deref hg (g.deref.took (readToken S conf g.deref.world)) rfl
    simp only [roundHead]
    generalize tokenHead S T type (readToken S conf g.deref.world).rc
      (g.deref.took (readToken S conf g.deref.world)) = head at hcomes
    cases hcomes with
    | done res _ => exact .done ⟨rfl, hput.1, hown.trans hput.2⟩
    | @call _ a back _ _ ha =>
      obtain ⟨h1, h2, h3⟩ := Act.runPtr_sim hparse a _ (hput.2.valid hg)
      rw [hput.1] at h1 h2
      have hown' := (hown.trans hput.2).trans h3
      simp only [Head.resume]
      rw [h1, h2]
      rcases ha.back (a.run parse (g.deref.took (readToken S conf g.deref.world))).1
        (a.run parse (g.deref.took (readToken S conf g.deref.world))).2 with
          ⟨-, hback⟩ | ⟨-, e, hback⟩
      · rw [hback]
        exact .next ⟨h2, hown'⟩
      · rw [hback]
        exact .done ⟨rfl, h2, hown'⟩

theorem ptrLoop_sim (hparse : PtrSim ptr parse) (hf : f.Valid) (type : ParseType) :
    LoopEndSim f (ptrLoop S T ptr type f) (parseLoop S T parse type f.deref) := by
  unfold ptrLoop parseLoop
  rcases Loop.run_rel (ptrStep_sim (S := S) (T := T) hparse hf type)
      ((f.deref.conf.map ConfFile.unread).getD 0 + 1) ⟨rfl, .refl f⟩ with
    ⟨hn, hn'⟩ | ⟨r, r', hr, hr', hsim⟩
  · rw [hn, hn']
    exact ⟨rfl, rfl, .refl f⟩
  · rw [hr, hr']
    exact hsim

/-- The variable of a call is the last one, and the others are those of the calls around it. -/
structure Inner (f g : PtrCf σ) : Prop where
  confFile : g.confFile = some f.locals.length
  locals : ∃ conf, g.locals = f.locals ++ [conf]

theorem Inner.valid {f g : PtrCf σ} (h : Inner f g) : g.Valid := by
  obtain ⟨conf, hlocals⟩ := h.locals
  exact ⟨_, h.confFile, by rw [hlocals, List.length_append]; simp⟩

/-- When the call is over, the variables are what they were. -/
theorem Inner.take {f g g' : PtrCf σ} (h : Inner f g) (hown : Own g g') :
    g'.locals.take f.locals.length = f.locals := by
  obtain ⟨conf, hlocals⟩ := h.locals
  have hlen : g'.locals.length = f.locals.length + 1 := by
    rw [hown.length, hlocals, List.length_append]
    rfl
  refine List.ext_getElem? fun q => ?_
  by_cases hq : q < f.locals.length
  · have hne : g.confFile ≠ some q := by
      rw [h.confFile]
      intro he
      have := Option.some.inj he
      omega
    rw [List.getElem?_take_of_lt hq, hown.others q hne, hlocals, List.getElem?_append_left hq]
  · have htake : (g'.locals.take f.locals.length).length ≤ q := by
      rw [List.length_take]
      omega
    rw [List.getElem?_eq_none htake, List.getElem?_eq_none (by omega)]

/-- The result of a call with a name, beside that of the other parser. -/
structure FileSim (f : PtrCf σ) (r : Except ParseError Unit × PtrCf σ)
    (r' : Except ParseError Unit × Cf σ) : Prop where
  rc : r.1 = r'.1
  deref : r.2.deref = r'.2
  confFile : r.2.confFile = f.confFile
  locals : r.2.locals = f.locals

theorem ptrClose_sim {f g : PtrCf σ} (hin : Inner f g) (fd : Int) (buf : Option Nat)
    {r : Except ParseError Unit × PtrCf σ} {r' : Except ParseError Unit × Cf σ}
    (h : LoopEndSim g r r') :
    FileSim f (ptrClose S fd buf f.confFile f.locals.length r)
      (closeConf S fd buf f.deref.conf r') := by
  obtain ⟨hrc, hcf, hown⟩ := h
  have htake := hin.take hown
  have hderef : ∀ w : σ, ({ r.2 with
      confFile := f.confFile, locals := r.2.locals.take f.locals.length, world := w } :
        PtrCf σ).deref = { r'.2 with conf := f.deref.conf, world := w } := by
    intro w
    rw [htake, ← hcf]
    rfl
  have hworld : r.2.world = r'.2.world := by
    rw [← hcf]
    rfl
  unfold ptrClose closeConf
  rw [hworld]
  cases buf with
  | none =>
    simp only
    cases S.closeFile fd r'.2.world with
    | mk ok w =>
      cases ok with
      | true => exact ⟨hrc, hderef w, rfl, htake⟩
      | false => exact ⟨rfl, hderef w, rfl, htake⟩
  | some p =>
    simp only
    cases S.closeFile fd (S.free p r'.2.world) with
    | mk ok w =>
      cases ok with
      | true => exact ⟨hrc, hderef w, rfl, htake⟩
      | false => exact ⟨rfl, hderef w, rfl, htake⟩

/-- A call with a name, once nested calls are known to do the same.  The variables are what they
were, those of the calls around it included. -/
theorem ptrFile_sim (n : Nat) (hparse : PtrSim (ptrParse S T n) (confParse S T n))
    (filename : List UInt8) (f : PtrCf σ) :
    FileSim f (ptrParse S T (n + 1) (some filename) f)
      (confParse S T (n + 1) (some filename) f.deref) := by
  have hworld : f.deref.world = f.world := rfl
  simp only [ptrParse, confParse]
  rw [hworld]
  by_cases hopen : (S.openFile filename f.world).1 = invalidFile
  · rw [if_pos hopen, if_pos hopen]
    exact ⟨rfl, rfl, rfl, rfl⟩
  rw [if_neg hopen, if_neg hopen]
  generalize S.openFile filename f.world = fd
  generalize S.fdInfo fd.1 fd.2 = info
  have hderef : ∀ w, (f.enter (.opened fd.1 info.1.2) w).deref
      = { f.deref with conf := some (.opened fd.1 info.1.2), world := w } := by
    intro w
    simp [PtrCf.deref, PtrCf.enter]
  cases S.alloc confBuffer info.2 with
  | mk buf w =>
    have hin : Inner f (f.enter (.opened fd.1 info.1.2) w) := ⟨rfl, _, rfl⟩
    cases buf with
    | none => exact ptrClose_sim hin fd.1 none ⟨rfl, hderef w, .refl _⟩
    | some buf =>
      have hloop := ptrLoop_sim (S := S) (T := T) hparse hin.valid .file
      rw [hderef w] at hloop
      exact ptrClose_sim hin fd.1 (some buf) hloop

/-- The parser with its pointer does what the parser does, for calls nested to any depth. -/
theorem ptrParse_sim (S : Sys σ) (T : Table σ) : ∀ n,
    PtrSim (ptrParse S T n) (confParse S T n) := by
  intro n
  induction n with
  | zero =>
    intro filename f _
    exact ⟨rfl, rfl, .refl f⟩
  | succ n ih =>
    intro filename f hf
    cases filename with
    | none =>
      cases hconf : f.deref.conf with
      | none =>
        simp only [ptrParse, confParse, hconf]
        exact ⟨trivial, trivial, .refl f⟩
      | some conf =>
        simp only [ptrParse, confParse, hconf]
        exact ptrLoop_sim ih hf _
    | some filename =>
      have hfile := ptrFile_sim n ih filename f
      exact ⟨hfile.rc, hfile.deref, hfile.confFile, by rw [hfile.locals],
        fun _ _ => by rw [hfile.locals]⟩

/-! ## 3. A parse that succeeds

What `CW_CONF_OK` is worth: every step went well, not only the last one.  The code reports each
failure at once, so this is a matter of following the rounds; `Succeeds` lists them. -/

/-- The rounds of a loop that ends well: every token is a code, and every handler succeeds. -/
inductive Succeeds (S : Sys σ) (T : Table σ) (parse : Parser σ) (type : ParseType) :
    Cf σ → Cf σ → Prop
  | ends {conf : ConfFile} {cf : Cf σ} (hconf : cf.conf = some conf)
      (hrc : ((readToken S conf cf.world).rc = .ok .blockDone ∧ type = .block) ∨
        ((readToken S conf cf.world).rc = .ok .fileDone ∧ type ≠ .block)) :
      Succeeds S T parse type cf (cf.took (readToken S conf cf.world))
  | again {conf : ConfFile} {cf cf' : Cf σ} {rc : Rc} {a : Act σ}
      {back : Rv → Cf σ → Step (Cf σ) (Except ParseError Unit × Cf σ)}
      (hconf : cf.conf = some conf) (hrc : (readToken S conf cf.world).rc = .ok rc)
      (ha : Called S T rc (cf.took (readToken S conf cf.world)) a back)
      (hok : (a.run parse (cf.took (readToken S conf cf.world))).1 = .ok)
      (hrest : Succeeds S T parse type (a.run parse (cf.took (readToken S conf cf.world))).2 cf') :
      Succeeds S T parse type cf cf'

/-- A loop that returns `CW_CONF_OK` had such rounds.  The induction is on the bound. -/
theorem run_succeeds {parse : Parser σ} {type : ParseType} : ∀ (n : Nat) {cf cf' : Cf σ},
    Loop.run (parseStep S T parse type) n cf = some (.ok (), cf') →
      Succeeds S T parse type cf cf' := by
  intro n
  induction n with
  | zero =>
    intro cf cf' h
    cases h
  | succ n ih =>
    intro cf cf' h
    cases hconf : cf.conf with
    | none =>
      have hstep : parseStep S T parse type cf = .done (.error .noFile, cf) := by
        unfold parseStep
        simp only [hconf]
      rw [Loop.run_done hstep] at h
      cases h
    | some conf =>
      have hstep := parseStep_eq S T parse type hconf
      have hcomes := tokenHead_comes S T type (readToken S conf cf.world).rc
        (cf.took (readToken S conf cf.world))
      unfold roundHead at hstep
      generalize tokenHead S T type (readToken S conf cf.world).rc
        (cf.took (readToken S conf cf.world)) = head at hcomes hstep
      cases hcomes with
      | done res hok =>
        rw [Loop.run_done hstep] at h
        obtain ⟨rfl, rfl⟩ := Prod.mk.inj (Option.some.inj h)
        exact .ends hconf (hok rfl)
      | @call rc a back hrc _ ha =>
        simp only [Head.resume] at hstep
        rcases ha.back (a.run parse (cf.took (readToken S conf cf.world))).1
          (a.run parse (cf.took (readToken S conf cf.world))).2 with ⟨hrv, hback⟩ | ⟨-, e, hback⟩
        · rw [hback] at hstep
          rw [Loop.run_next hstep] at h
          exact .again hconf hrc ha hrv (ih h)
        · rw [hback] at hstep
          rw [Loop.run_done hstep] at h
          cases h

/-- No step of the parse of a file failed: it was opened, the buffer was allocated, every round went
well, and the file was closed. -/
def NoneFailed (S : Sys σ) (T : Table σ) (n : Nat) (filename : List UInt8) (cf : Cf σ) : Prop :=
  (S.openFile filename cf.world).1 ≠ invalidFile ∧ ∃ buf w cf₁,
    S.alloc confBuffer (openedCf S filename cf).world = (some buf, w) ∧
    Succeeds S T (confParse S T n) .file { openedCf S filename cf with world := w } cf₁ ∧
    (S.closeFile (S.openFile filename cf.world).1 (S.free buf cf₁.world)).1 = true

/-- `CW_CONF_OK` says that no step failed. -/
theorem confParse_noneFailed {n : Nat} {filename : List UInt8} {cf : Cf σ}
    (h : (confParse S T (n + 1) (some filename) cf).1 = .ok ()) :
    NoneFailed S T n filename cf := by
  simp only [confParse] at h
  by_cases hopen : (S.openFile filename cf.world).1 = invalidFile
  · rw [if_pos hopen] at h
    cases h
  rw [if_neg hopen] at h
  refine ⟨hopen, ?_⟩
  cases ha : S.alloc confBuffer (S.fdInfo (S.openFile filename cf.world).1
      (S.openFile filename cf.world).2).2 with
  | mk buf w =>
    rw [ha] at h
    cases buf with
    | none =>
      simp only [closeConf] at h
      split at h <;> cases h
    | some buf =>
      simp only [closeConf] at h
      split at h
      · rename_i w' hclose
        unfold parseLoop at h hclose
        split at h
        · rename_i r hrun
          simp only [hrun] at hclose
          obtain ⟨res, cf₁⟩ := r
          obtain rfl : res = .ok () := h
          refine ⟨buf, w, cf₁, ha, run_succeeds _ hrun, ?_⟩
          rw [hclose]
        · cases h
      · cases h

/-! ## 4. Balance -/

/-- A parse of a file, whose log is `log`, is balanced: what it opened it closed and what it
allocated it freed, in the order of a stack, and the current file is the one it was. -/
structure FileBalanced (S : Sys σ) (T : Table σ) (n : Nat) (filename : List UInt8)
    (f : PtrCf (σ × List Event)) (r : Except ParseError Unit × PtrCf (σ × List Event)) : Prop where
  /-- `cf->conf_file` is what it was -/
  confFile : r.2.confFile = f.confFile
  /-- so are the files of the calls around it, with their buffers and line counters -/
  locals : r.2.locals = f.locals
  /-- what was opened is closed once, and what was allocated freed once -/
  log : ∃ ok log, r.2.world.2 = f.world.2 ++ log ∧ Whole ok log ∧ Settled log ∧
    (r.1 = .ok () → ok = true)
  /-- `CW_CONF_OK` says that no step failed -/
  ok : r.1 = .ok () → NoneFailed S.traced T.traced n filename f.deref
  /-- the log makes no difference -/
  untraced : confParse S T (n + 1) (some filename) (f.deref.inWorld f.world.1)
    = (r.1, r.2.deref.inWorld r.2.world.1)

/-- **Every call of `cw_conf_parse` on a file is balanced, on every exit**: whichever of its steps
fail, whatever its handlers do, and however deep it is nested in others and others in it. -/
theorem confParse_balanced (S : Sys σ) (T : Table σ) (n : Nat) (filename : List UInt8)
    (f : PtrCf (σ × List Event)) :
    FileBalanced S T n filename f (ptrParse S.traced T.traced (n + 1) (some filename) f) := by
  have hfile := ptrFile_sim n (ptrParse_sim S.traced T.traced n) filename f
  have hworld : (ptrParse S.traced T.traced (n + 1) (some filename) f).2.world
      = (confParse S.traced T.traced (n + 1) (some filename) f.deref).2.world := by
    rw [← hfile.deref]
    rfl
  refine ⟨hfile.confFile, hfile.locals, ?_, ?_, ?_⟩
  · obtain ⟨ok, log, hlog, hwhole, hok⟩ := confParse_whole S T n filename f.deref
    refine ⟨ok, log, ?_, hwhole, hwhole.settled, ?_⟩
    · rw [hworld]
      exact hlog
    · rw [hfile.rc]
      exact hok
  · intro h
    rw [hfile.rc] at h
    exact confParse_noneFailed h
  · have htraced := confParse_traced S T (n + 1) filename (f.deref.inWorld f.world.1) f.world.2
    rw [hfile.rc, hfile.deref, hworld]
    exact htraced

end

end Capwap
