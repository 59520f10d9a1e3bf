/-
# The same parse in two worlds

Two systems that answer alike make the parser do the same.  The relation between their worlds may
depend on the files that are open and on how much of each has been read (`OpenFiles`): a call of
the system keeps it, opens a file on top or closes the topmost (`Sys.Sim`).

Handlers are the same program in both worlds.  They work on a part of the world that both have
(`Lens`), and a table is lifted to each (`Table.lift`).  Then the parser returns the same codes and
leaves the same words, file and view, and related worlds, whatever the text is and however often
handlers call it again (`confParse_sim`).
-/
import Capwap.Conf.Heads

namespace Capwap

/-! ## 1. Systems

A relation between two worlds is indexed by the open files, so that it can speak of a position for
each: in `Conf/ReadFile.lean` it says where the kernel stands in a file.  A call that opens a file
puts it in front, at offset 0; a read moves the front one by the bytes it returned; closing takes
it away. -/

/-- The open files, the current one first: the descriptor, and the offset of the next read. -/
abbrev OpenFiles : Type := List (Int × Nat)

/-- The current file, as it stands there. -/
def ConfFile.front (conf : ConfFile) : Int × Nat := (conf.file.fd, conf.file.offset)

section
variable {σ τ : Type}

/-- Two systems that answer alike, in worlds related by `R`: each call returns the same in both,
and leaves related worlds. -/
structure Sys.Sim (S : Sys σ) (S' : Sys τ) (R : OpenFiles → σ → τ → Prop) : Prop where
  openFile : ∀ {fs w w'} name, R fs w w' →
    (S'.openFile name w').1 = (S.openFile name w).1 ∧
    ((S.openFile name w).1 = invalidFile → R fs (S.openFile name w).2 (S'.openFile name w').2) ∧
    ((S.openFile name w).1 ≠ invalidFile →
      R (((S.openFile name w).1, 0) :: fs) (S.openFile name w).2 (S'.openFile name w').2)
  fdInfo : ∀ {fs w w'} fd, R fs w w' →
    (S'.fdInfo fd w').1 = (S.fdInfo fd w).1 ∧ R fs (S.fdInfo fd w).2 (S'.fdInfo fd w').2
  alloc : ∀ {fs w w'} n, R fs w w' →
    (S'.alloc n w').1 = (S.alloc n w).1 ∧ R fs (S.alloc n w).2 (S'.alloc n w').2
  free : ∀ {fs w w'} p, R fs w w' → R fs (S.free p w) (S'.free p w')
  pread : ∀ {fs w w' fd off} n, R ((fd, off) :: fs) w w' →
    (S'.pread fd n off w').1 = (S.pread fd n off w).1 ∧
    R ((fd, off + ((S.pread fd n off w).1.getD []).length) :: fs)
      (S.pread fd n off w).2 (S'.pread fd n off w').2
  closeFile : ∀ {fs w w' fd off}, R ((fd, off) :: fs) w w' →
    (S'.closeFile fd w').1 = (S.closeFile fd w).1 ∧
    R fs (S.closeFile fd w).2 (S'.closeFile fd w').2
  clearArgs : ∀ {fs w w'}, R fs w w' → R fs (S.clearArgs w) (S'.clearArgs w')
  arrayPush : ∀ {fs w w'}, R fs w w' →
    (S'.arrayPush w').1 = (S.arrayPush w).1 ∧ R fs (S.arrayPush w).2 (S'.arrayPush w').2
  pnalloc : ∀ {fs w w'} n, R fs w w' →
    (S'.pnalloc n w').1 = (S.pnalloc n w).1 ∧ R fs (S.pnalloc n w).2 (S'.pnalloc n w').2
  load : ∀ {fs w w'} a, R fs w w' → S'.load a w' = S.load a w

/-! ## 2. The tokenizer

The tokenizer computes nothing from the world; it only passes it on and looks at the answers.  So
two runs are in step if the answers are, and what they have apart from the world is equal, not
merely related. -/

/-- The loop's state in another world. -/
abbrev Tok.inWorld (t : Tok σ) (w : τ) : Tok τ :=
  { flags := t.flags, start := t.start, startLine := t.startLine, args := t.args, conf := t.conf,
    world := w }

/-- A result in another world. -/
abbrev TokenResult.inWorld (r : TokenResult σ) (w : τ) : TokenResult τ :=
  { rc := r.rc, args := r.args, conf := r.conf, world := w }

variable {S : Sys σ} {S' : Sys τ} {R : OpenFiles → σ → τ → Prop} {fd : Int}
variable {fs : OpenFiles}

/-- Two states of the loop that differ in the world only, on the file `fd`. -/
def TokSim (R : OpenFiles → σ → τ → Prop) (fd : Int) (fs : OpenFiles) (t : Tok σ)
    (t' : Tok τ) : Prop :=
  ∃ w', t' = t.inWorld w' ∧ t.conf.file.fd = fd ∧ R (t.conf.front :: fs) t.world w'

/-- Two results that differ in the world only. -/
def ResultSim (R : OpenFiles → σ → τ → Prop) (fd : Int) (fs : OpenFiles) (r : TokenResult σ)
    (r' : TokenResult τ) : Prop :=
  ∃ w', r' = r.inWorld w' ∧ r.conf.file.fd = fd ∧ R (r.conf.front :: fs) r.world w'

theorem refill_sim (hS : S.Sim S' R) {t : Tok σ} {w' : τ} (hfd : t.conf.file.fd = fd)
    (h : R (t.conf.front :: fs) t.world w') :
    Loop.StepRel (TokSim R fd fs) (ResultSim R fd fs) (refill S t) (refill S' (t.inWorld w')) := by
  unfold refill readFile
  simp only [Tok.inWorld]
  by_cases hge : t.conf.buffer.pos ≥ t.conf.buffer.bytes.length
  · rw [if_pos hge, if_pos hge]
    by_cases hoff : t.conf.file.offset ≥ t.conf.file.size
    · rw [if_pos hoff, if_pos hoff]
      by_cases hopen : t.args.length > 0 ∨ t.flags.lastSpace = false
      · rw [if_pos hopen, if_pos hopen]
        exact .done ⟨w', rfl, hfd, h⟩
      · rw [if_neg hopen, if_neg hopen]
        exact .done ⟨w', rfl, hfd, h⟩
    · rw [if_neg hoff, if_neg hoff]
      by_cases hfull : t.conf.buffer.pos - t.start = confBuffer
      · rw [if_pos hfull, if_pos hfull]
        exact .done ⟨w', rfl, hfd, h⟩
      · rw [if_neg hfull, if_neg hfull]
        generalize (if t.conf.file.size - t.conf.file.offset > _ then _ else _) = n
        obtain ⟨hans, hR⟩ := hS.pread n h
        cases hp : S.pread t.conf.file.fd n t.conf.file.offset t.world with
        | mk ans w₁ =>
          cases hp' : S'.pread t.conf.file.fd n t.conf.file.offset w' with
          | mk ans' w₁' =>
            rw [hp, hp'] at hans hR
            obtain rfl : ans' = ans := hans
            cases ans' with
            | none => exact .done ⟨w₁', rfl, hfd, hR⟩
            | some bs =>
              simp only
              by_cases hne : bs.length ≠ n
              · rw [if_pos hne, if_pos hne]
                exact .done ⟨w₁', rfl, hfd, hR⟩
              · rw [if_neg hne, if_neg hne]
                exact .next ⟨w₁', rfl, hfd, hR⟩
  · rw [if_neg hge, if_neg hge]
    exact .next ⟨w', rfl, hfd, h⟩

theorem pushWord_sim (hS : S.Sim S' R) {t : Tok σ} {w' : τ} (hfd : t.conf.file.fd = fd)
    (h : R (t.conf.front :: fs) t.world w') (stop : Nat) (c : UInt8) :
    Loop.StepRel (TokSim R fd fs) (ResultSim R fd fs) (pushWord S t stop c)
      (pushWord S' (t.inWorld w') stop c) := by
  unfold pushWord
  simp only
  obtain ⟨hok, hR⟩ := hS.arrayPush h
  cases hp : S.arrayPush t.world with
  | mk ok w₁ =>
    cases hp' : S'.arrayPush w' with
    | mk ok' w₁' =>
      rw [hp, hp'] at hok hR
      obtain rfl : ok' = ok := hok
      cases ok' with
      | false => exact .done ⟨w₁', rfl, hfd, hR⟩
      | true =>
        simp only
        obtain ⟨hok₂, hR₂⟩ := hS.pnalloc (stop - t.start + 1) hR
        cases ha : S.pnalloc (stop - t.start + 1) w₁ with
        | mk ok w₂ =>
          cases ha' : S'.pnalloc (stop - t.start + 1) w₁' with
          | mk ok' w₂' =>
            rw [ha, ha'] at hok₂ hR₂
            obtain rfl : ok' = ok := hok₂
            cases ok' with
            | false => exact .done ⟨w₂', rfl, hfd, hR₂⟩
            | true =>
              simp only
              by_cases h1 : c = Ch.semicolon
              · rw [if_pos h1, if_pos h1]
                exact .done ⟨w₂', rfl, hfd, hR₂⟩
              rw [if_neg h1, if_neg h1]
              by_cases h2 : c = Ch.lbrace
              · rw [if_pos h2, if_pos h2]
                exact .done ⟨w₂', rfl, hfd, hR₂⟩
              · rw [if_neg h2, if_neg h2]
                exact .next ⟨w₂', rfl, hfd, hR₂⟩

theorem scan_sim (hS : S.Sim S' R) {t : Tok σ} {w' : τ} (hfd : t.conf.file.fd = fd)
    (h : R (t.conf.front :: fs) t.world w') :
    Loop.StepRel (TokSim R fd fs) (ResultSim R fd fs) (scan S t) (scan S' (t.inWorld w')) := by
  unfold scan
  simp only [Tok.inWorld]
  cases t.conf.buffer.bytes[t.conf.buffer.pos]? with
  | none => exact .done ⟨w', rfl, hfd, h⟩
  | some c =>
    simp only
    cases (scanByte t.flags t.args.length c).2 with
    | go => exact .next ⟨w', rfl, hfd, h⟩
    | mark skip => exact .next ⟨w', rfl, hfd, h⟩
    | word =>
      refine pushWord_sim hS ?_ ?_ _ c
      · exact hfd
      · exact h
    | ret rc => exact .done ⟨w', rfl, hfd, h⟩
    | fail => exact .done ⟨w', rfl, hfd, h⟩

/-- A round in two worlds ends the same way, or goes on the same way. -/
theorem tokenStep_sim (hS : S.Sim S' R) (t : Tok σ) (t' : Tok τ) (h : TokSim R fd fs t t') :
    Loop.StepRel (TokSim R fd fs) (ResultSim R fd fs) (tokenStep S t) (tokenStep S' t') := by
  obtain ⟨w', rfl, hfd, hR⟩ := h
  have hrefill := refill_sim hS hfd hR
  unfold tokenStep
  generalize refill S t = x at hrefill ⊢
  generalize refill S' (t.inWorld w') = x' at hrefill ⊢
  cases hrefill with
  | done hdone => exact .done hdone
  | next hnext =>
    obtain ⟨w₁', rfl, hfd₁, hR₁⟩ := hnext
    exact scan_sim hS hfd₁ hR₁

/-- A call of the tokenizer returns the same, in related worlds. -/
theorem readToken_sim (hS : S.Sim S' R) (conf : ConfFile) {w : σ} {w' : τ}
    (h : R (conf.front :: fs) w w') :
    ResultSim R conf.file.fd fs (readToken S conf w) (readToken S' conf w') := by
  have hinit : TokSim R conf.file.fd fs (Tok.init S conf w) (Tok.init S' conf w') :=
    ⟨S'.clearArgs w', rfl, rfl, hS.clearArgs h⟩
  unfold readToken
  rcases Loop.run_rel (tokenStep_sim hS) (conf.unread + 1) hinit with
    ⟨hn, hn'⟩ | ⟨r, r', hr, hr', hsim⟩
  · rw [hn, hn']
    exact ⟨w', rfl, rfl, h⟩
  · rw [hr, hr']
    exact hsim

/-! ## 3. Handlers

A handler is a program that asks for parses and ends with a code.  It is written for a small world,
its own, and `Act.lift` makes it work on a part of a larger one: before each of its steps the part
is read, and when it gives way the part is written back. -/

/-- A part `ρ` of the world, for handlers to work on; `enter` and `leave` are what happens to the
world around a handler. -/
structure Lens (σ ρ : Type) where
  get : σ → ρ
  put : ρ → σ → σ
  enter : σ → σ
  leave : Rv → σ → σ

variable {ρ : Type} {L : Lens σ ρ} {L' : Lens τ ρ}

/-- A handler at work, in a world of which it sees a part. -/
def Act.lift (L : Lens σ ρ) : Act ρ → σ → Act σ
  | .ret rv view r, w => .ret rv view (L.leave rv (L.put r w))
  | .parse filename view r k, w =>
    .parse filename view (L.put r w) fun rv view args w => (k rv view args (L.get w)).lift L w

abbrev Command.lift (L : Lens σ ρ) (cmd : Command ρ) : Command σ :=
  { name := cmd.name
    type := cmd.type
    conf := cmd.conf
    set := fun view args p w => (cmd.set view args p (L.get w)).lift L (L.enter w) }

abbrev Module.lift (L : Lens σ ρ) (m : Module ρ) : Module σ :=
  { type := m.type
    index := m.index
    ctxIndex := m.ctxIndex
    commands := m.commands.map (·.map (Command.lift L)) }

/-- The same handlers, in a larger world. -/
def Table.lift (L : Lens σ ρ) (T : Table ρ) : Table σ :=
  { modules := T.modules.map (Module.lift L)
    custom := fun handler view args w =>
      (T.custom handler view args (L.get w)).lift L (L.enter w) }

/-- The two worlds show handlers the same part, and what these do there keeps the relation, as does
what happens around them. -/
structure Lens.Sim (L : Lens σ ρ) (L' : Lens τ ρ) (R : OpenFiles → σ → τ → Prop) : Prop where
  get : ∀ {fs w w'}, R fs w w' → L'.get w' = L.get w
  put : ∀ {fs w w'} r, R fs w w' → R fs (L.put r w) (L'.put r w')
  enter : ∀ {fs w w'}, R fs w w' → L'.get (L'.enter w') = L.get w ∧ R fs (L.enter w) (L'.enter w')
  leave : ∀ {fs w w'} rv, R fs w w' → R fs (L.leave rv w) (L'.leave rv w')

/-- What the search ends with, in a larger world. -/
def Lookup.lift (L : Lens σ ρ) : Lookup ρ → Lookup σ
  | .command m cmd => .command (m.lift L) (cmd.lift L)
  | .notAllowed => .notAllowed
  | .unknown => .unknown

theorem findIn_lift (L : Lens σ ρ) (view : View) (m : Module ρ) (name : Word) :
    ∀ (cmds : List (Command ρ)) (found : Bool),
      findIn view (m.lift L) name found (cmds.map (Command.lift L))
        = ((findIn view m name found cmds).1,
            (findIn view m name found cmds).2.map (Command.lift L)) := by
  intro cmds
  induction cmds with
  | nil =>
    intro found
    rfl
  | cons cmd cmds ih =>
    intro found
    have hnamed : (cmd.lift L).Named name ↔ cmd.Named name := Iff.rfl
    simp only [List.map_cons, findIn, hnamed]
    by_cases h1 : ¬ cmd.Named name
    · rw [if_pos h1, if_pos h1]
      exact ih found
    rw [if_neg h1, if_neg h1]
    by_cases h2 : m.type ≠ confModule ∧ m.type ≠ view.moduleType
    · rw [if_pos h2, if_pos h2]
      exact ih true
    rw [if_neg h2, if_neg h2]
    by_cases h3 : cmd.type &&& view.cmdType = 0
    · rw [if_pos h3, if_pos h3]
      exact ih true
    rw [if_neg h3, if_neg h3]
    rfl

theorem findCommand_lift (L : Lens σ ρ) (view : View) (name : Word) :
    ∀ (ms : List (Module ρ)) (found : Bool),
      findCommand view name found (ms.map (Module.lift L))
        = (findCommand view name found ms).lift L := by
  intro ms
  induction ms with
  | nil =>
    intro found
    cases found <;> rfl
  | cons m ms ih =>
    intro found
    rw [List.map_cons]
    unfold findCommand
    cases hcmds : m.commands with
    | none =>
      simp only [hcmds, Option.map_none]
      exact ih found
    | some cmds =>
      simp only [hcmds, Option.map_some, findIn_lift L view m name cmds found]
      cases findIn view m name found cmds with
      | mk b taken =>
        cases taken with
        | none => exact ih b
        | some cmd => rfl

/-! ## 4. The parser

A handler may parse the text it is in, or open a file.  The first works on the front file, and the
second leaves it as it was: that is why `ParserSim` asks for both, with any files below. -/

/-- The parser's state in another world. -/
abbrev Cf.inWorld (cf : Cf σ) (w : τ) : Cf τ :=
  { args := cf.args, conf := cf.conf, view := cf.view, world := w }

/-- Two states of the parser that differ in the world only, on the file `fd`. -/
def CfSim (R : OpenFiles → σ → τ → Prop) (fd : Int) (fs : OpenFiles) (cf : Cf σ)
    (cf' : Cf τ) : Prop :=
  ∃ w' conf, cf' = cf.inWorld w' ∧ cf.conf = some conf ∧ conf.file.fd = fd ∧
    R (conf.front :: fs) cf.world w'

/-- Two results of a parse that differ in the world only. -/
def EndSim (R : OpenFiles → σ → τ → Prop) (fd : Int) (fs : OpenFiles)
    (r : Except ParseError Unit × Cf σ) (r' : Except ParseError Unit × Cf τ) : Prop :=
  r'.1 = r.1 ∧ CfSim R fd fs r.2 r'.2

/-- Two parsers that do the same on the current file, and on files opened from it.  After the first
the current file may have moved on; after the second it is where it was. -/
def ParserSim (R : OpenFiles → σ → τ → Prop) (parse : Parser σ) (parse' : Parser τ) : Prop :=
  ∀ fd fs filename cf cf', CfSim R fd fs cf cf' →
    EndSim R fd fs (parse filename cf) (parse' filename cf')

variable {parse : Parser σ} {parse' : Parser τ} {T : Table ρ}

/-- A handler does the same in both worlds.  The induction is on the handler. -/
theorem Act.lift_run (hL : L.Sim L' R) (hparse : ParserSim R parse parse') : ∀ (a : Act ρ)
    {w : σ} {w' : τ} {cf : Cf σ} {conf : ConfFile}, cf.conf = some conf →
    conf.file.fd = fd → R (conf.front :: fs) w w' → ∀ w₀,
      ((a.lift L' w').run parse' (cf.inWorld w₀)).1 = ((a.lift L w).run parse cf).1 ∧
        CfSim R fd fs ((a.lift L w).run parse cf).2
          ((a.lift L' w').run parse' (cf.inWorld w₀)).2 := by
  intro a
  induction a with
  | ret rv view r =>
    intro w w' cf conf hconf hfd hR w₀
    exact ⟨rfl, _, conf, rfl, hconf, hfd, hL.leave rv (hL.put r hR)⟩
  | parse filename view r k ih =>
    intro w w' cf conf hconf hfd hR w₀
    have hsim : CfSim R fd fs { cf with view := view, world := L.put r w }
        { cf.inWorld w₀ with view := view, world := L'.put r w' } :=
      ⟨_, conf, rfl, hconf, hfd, hL.put r hR⟩
    obtain ⟨hrc, w₁', conf₁, heq, hconf₁, hfd₁, hR₁⟩ := hparse fd fs filename _ _ hsim
    simp only [Act.lift, Act.run]
    rw [heq, hrc, hL.get hR₁]
    exact ih _ _ _ _ hconf₁ hfd₁ hR₁ w₁'

theorem afterCustom_sim {rv : Rv} {cf : Cf σ} {cf' : Cf τ} (h : CfSim R fd fs cf cf') :
    Loop.StepRel (CfSim R fd fs) (EndSim R fd fs) (afterCustom rv cf) (afterCustom rv cf') := by
  cases rv with
  | ok => exact .next h
  | error => exact .done ⟨rfl, h⟩
  | message text => exact .done ⟨rfl, h⟩

theorem afterSet_sim (name : Word) {rv : Rv} {cf : Cf σ} {cf' : Cf τ} (h : CfSim R fd fs cf cf') :
    Loop.StepRel (CfSim R fd fs) (EndSim R fd fs) (afterSet name rv cf) (afterSet name rv cf') := by
  cases rv with
  | ok => exact .next h
  | error => exact .done ⟨rfl, h⟩
  | message text => exact .done ⟨rfl, h⟩

theorem handlerHead_sim (hS : S.Sim S' R) (hL : L.Sim L' R) (hparse : ParserSim R parse parse')
    (rc : Rc) {cf : Cf σ} {cf' : Cf τ} (h : CfSim R fd fs cf cf') :
    Loop.StepRel (CfSim R fd fs) (EndSim R fd fs) ((handlerHead S (T.lift L) rc cf).resume parse)
      ((handlerHead S' (T.lift L') rc cf').resume parse') := by
  have hfail : ∀ e, Loop.StepRel (CfSim R fd fs) (EndSim R fd fs)
      ((Head.done (.error e, cf)).resume parse) ((Head.done (.error e, cf')).resume parse') :=
    fun e => .done ⟨rfl, h⟩
  obtain ⟨w', conf, rfl, hconf, hfd, hR⟩ := h
  unfold handlerHead
  simp only
  cases hargs : cf.args with
  | nil => exact hfail _
  | cons name rest =>
    simp only [Table.lift, findCommand_lift]
    cases findCommand cf.view name false T.modules with
    | notAllowed => exact hfail _
    | unknown => exact hfail _
    | command m cmd =>
      simp only [Lookup.lift]
      by_cases h1 : cmd.type &&& confBlock = 0 ∧ rc ≠ .ok
      · rw [if_pos h1, if_pos h1]
        exact hfail _
      rw [if_neg h1, if_neg h1]
      by_cases h2 : cmd.type &&& confBlock ≠ 0 ∧ rc ≠ .blockStart
      · rw [if_pos h2, if_pos h2]
        exact hfail _
      rw [if_neg h2, if_neg h2]
      by_cases h3 : ¬ admitsArgs cmd.type (name :: rest).length
      · rw [if_pos h3, if_pos h3]
        exact hfail _
      rw [if_neg h3, if_neg h3]
      have hload : confPointer S' cf.view (m.lift L') (cmd.lift L') w'
          = confPointer S cf.view (m.lift L) (cmd.lift L) cf.world := by
        simp only [confPointer, hS.load _ hR]
      obtain ⟨hget, henter⟩ := hL.enter hR
      simp only [Head.resume, hload, Command.lift, hL.get hR]
      obtain ⟨hrv, hsim⟩ := Act.lift_run hL hparse (cmd.set cf.view (name :: rest)
        (confPointer S cf.view (m.lift L) (cmd.lift L) cf.world) (L.get cf.world))
        hconf hfd henter w'
      simp only [Command.lift] at hrv hsim
      rw [hrv]
      exact afterSet_sim name hsim

theorem dispatchHead_sim (hS : S.Sim S' R) (hL : L.Sim L' R) (hparse : ParserSim R parse parse')
    (rc : Rc) {cf : Cf σ} {cf' : Cf τ} (h : CfSim R fd fs cf cf') :
    Loop.StepRel (CfSim R fd fs) (EndSim R fd fs) ((dispatchHead S (T.lift L) rc cf).resume parse)
      ((dispatchHead S' (T.lift L') rc cf').resume parse') := by
  have hhandler := handlerHead_sim (T := T) hS hL hparse rc h
  obtain ⟨w', conf, rfl, hconf, hfd, hR⟩ := h
  unfold dispatchHead
  simp only
  by_cases hz : cf.view.handler ≠ 0
  · rw [if_pos hz, if_pos hz]
    by_cases hb : rc = .blockStart
    · rw [if_pos hb, if_pos hb]
      exact .done ⟨rfl, w', conf, rfl, hconf, hfd, hR⟩
    · rw [if_neg hb, if_neg hb]
      obtain ⟨hget, henter⟩ := hL.enter hR
      simp only [Head.resume, Table.lift, hL.get hR]
      obtain ⟨hrv, hsim⟩ := Act.lift_run hL hparse
        (T.custom cf.view.handler cf.view cf.args (L.get cf.world)) hconf hfd henter w'
      rw [hrv]
      exact afterCustom_sim hsim
  · rw [if_neg hz, if_neg hz]
    exact hhandler

/-- A round does the same in both worlds. -/
theorem parseStep_sim (hS : S.Sim S' R) (hL : L.Sim L' R) (hparse : ParserSim R parse parse')
    (type : ParseType) (cf : Cf σ) (cf' : Cf τ) (h : CfSim R fd fs cf cf') :
    Loop.StepRel (CfSim R fd fs) (EndSim R fd fs) (parseStep S (T.lift L) parse type cf)
      (parseStep S' (T.lift L') parse' type cf') := by
  obtain ⟨w', conf, rfl, hconf, hfd, hR⟩ := h
  obtain ⟨w₁', heq, hfd₁, hR₁⟩ := readToken_sim hS conf hR
  have hsim : CfSim R fd fs (cf.took (readToken S conf cf.world))
      ((cf.inWorld w').took ((readToken S conf cf.world).inWorld w₁')) :=
    ⟨w₁', _, rfl, rfl, hfd₁.trans hfd, hR₁⟩
  rw [parseStep_eq S (T.lift L) parse type hconf,
    parseStep_eq S' (T.lift L') parse' type (show (cf.inWorld w').conf = some conf from hconf)]
  unfold roundHead tokenHead
  simp only [heq]
  cases (readToken S conf cf.world).rc with
  | error e => exact .done ⟨rfl, hsim⟩
  | ok rc =>
    cases rc with
    | blockDone =>
      refine .done ?_
      by_cases hb : type ≠ .block
      · rw [if_pos hb, if_pos hb]
        exact ⟨rfl, hsim⟩
      · rw [if_neg hb, if_neg hb]
        exact ⟨rfl, hsim⟩
    | fileDone =>
      refine .done ?_
      by_cases hb : type = .block
      · rw [if_pos hb, if_pos hb]
        exact ⟨rfl, hsim⟩
      · rw [if_neg hb, if_neg hb]
        exact ⟨rfl, hsim⟩
    | blockStart =>
      simp only
      by_cases hp : type = .param
      · rw [if_pos hp, if_pos hp]
        exact .done ⟨rfl, hsim⟩
      · rw [if_neg hp, if_neg hp]
        exact dispatchHead_sim hS hL hparse .blockStart hsim
    | ok => exact dispatchHead_sim hS hL hparse .ok hsim

theorem parseLoop_sim (hS : S.Sim S' R) (hL : L.Sim L' R) (T : Table ρ)
    (hparse : ParserSim R parse parse') (type : ParseType) {cf : Cf σ} {cf' : Cf τ}
    (h : CfSim R fd fs cf cf') :
    EndSim R fd fs (parseLoop S (T.lift L) parse type cf)
      (parseLoop S' (T.lift L') parse' type cf') := by
  have hconf : cf'.conf = cf.conf := by
    obtain ⟨w', conf, rfl, -⟩ := h
    rfl
  unfold parseLoop
  rw [hconf]
  rcases Loop.run_rel (parseStep_sim (T := T) hS hL hparse type)
      ((cf.conf.map ConfFile.unread).getD 0 + 1) h with ⟨hn, hn'⟩ | ⟨r, r', hr, hr', hsim⟩
  · rw [hn, hn']
    exact ⟨rfl, h⟩
  · rw [hr, hr']
    exact hsim

/-- `cf->conf_file` is what it was. -/
theorem closeConf_conf (S : Sys σ) (fd : Int) (buf : Option Nat) (prev : Option ConfFile)
    (r : Except ParseError Unit × Cf σ) : (closeConf S fd buf prev r).2.conf = prev := by
  unfold closeConf
  cases buf with
  | none =>
    simp only
    split <;> rfl
  | some p =>
    simp only
    split <;> rfl

/-- The end of a file closes it in both worlds. -/
theorem closeConf_sim (hS : S.Sim S' R) (buf : Option Nat) (prev : Option ConfFile)
    {r : Except ParseError Unit × Cf σ} {r' : Except ParseError Unit × Cf τ}
    (h : EndSim R fd fs r r') :
    (closeConf S' fd buf prev r').1 = (closeConf S fd buf prev r).1 ∧
      ∃ w', (closeConf S' fd buf prev r').2 = (closeConf S fd buf prev r).2.inWorld w' ∧
        R fs (closeConf S fd buf prev r).2.world w' := by
  obtain ⟨hrc, w', conf, heq, hconf, rfl, hR⟩ := h
  have hclose : ∀ {w : σ} {w' : τ}, R (conf.front :: fs) w w' →
      ((S'.closeFile conf.file.fd w').1 = (S.closeFile conf.file.fd w).1 ∧
        R fs (S.closeFile conf.file.fd w).2 (S'.closeFile conf.file.fd w').2) :=
    fun h => hS.closeFile h
  have hfree : ∀ p, R (conf.front :: fs) (S.free p r.2.world) (S'.free p w') :=
    fun p => hS.free p hR
  unfold closeConf
  rw [heq, hrc]
  cases buf with
  | none =>
    simp only
    obtain ⟨hok, hR₁⟩ := hclose hR
    cases hc : S.closeFile conf.file.fd r.2.world with
    | mk ok w₁ =>
      cases hc' : S'.closeFile conf.file.fd w' with
      | mk ok' w₁' =>
        rw [hc, hc'] at hok hR₁
        obtain rfl : ok' = ok := hok
        cases ok' with
        | true => exact ⟨rfl, w₁', rfl, hR₁⟩
        | false => exact ⟨rfl, w₁', rfl, hR₁⟩
  | some p =>
    simp only
    obtain ⟨hok, hR₁⟩ := hclose (hfree p)
    cases hc : S.closeFile conf.file.fd (S.free p r.2.world) with
    | mk ok w₁ =>
      cases hc' : S'.closeFile conf.file.fd (S'.free p w') with
      | mk ok' w₁' =>
        rw [hc, hc'] at hok hR₁
        obtain rfl : ok' = ok := hok
        cases ok' with
        | true => exact ⟨rfl, w₁', rfl, hR₁⟩
        | false => exact ⟨rfl, w₁', rfl, hR₁⟩

/-- A parse of a file, once nested parses are known to do the same.  What was open stays open. -/
theorem parseFile_sim (hS : S.Sim S' R) (hL : L.Sim L' R) (n : Nat)
    (hparse : ParserSim R (confParse S (T.lift L) n) (confParse S' (T.lift L') n))
    (filename : List UInt8) {cf : Cf σ} {w' : τ} (h : R fs cf.world w') :
    (confParse S' (T.lift L') (n + 1) (some filename) (cf.inWorld w')).1
        = (confParse S (T.lift L) (n + 1) (some filename) cf).1 ∧
      ∃ w₁', (confParse S' (T.lift L') (n + 1) (some filename) (cf.inWorld w')).2
          = (confParse S (T.lift L) (n + 1) (some filename) cf).2.inWorld w₁' ∧
        (confParse S (T.lift L) (n + 1) (some filename) cf).2.conf = cf.conf ∧
        R fs (confParse S (T.lift L) (n + 1) (some filename) cf).2.world w₁' := by
  obtain ⟨hfd, hfailed, hopened⟩ := hS.openFile filename h
  simp only [confParse]
  rw [hfd]
  by_cases hopen : (S.openFile filename cf.world).1 = invalidFile
  · rw [if_pos hopen, if_pos hopen]
    exact ⟨rfl, _, rfl, rfl, hfailed hopen⟩
  rw [if_neg hopen, if_neg hopen]
  have hR := hopened hopen
  generalize S.openFile filename cf.world = x at hfd hR ⊢
  obtain ⟨hinfo, hR⟩ := hS.fdInfo x.1 hR
  rw [hinfo]
  obtain ⟨hbuf, hR⟩ := hS.alloc confBuffer hR
  cases ha : S.alloc confBuffer (S.fdInfo x.1 x.2).2 with
  | mk buf w₁ =>
    cases ha' : S'.alloc confBuffer (S'.fdInfo x.1 (S'.openFile filename w').2).2 with
    | mk buf' w₁' =>
      rw [ha, ha'] at hbuf hR
      obtain rfl : buf' = buf := hbuf
      cases buf' with
      | none =>
        simp only
        have hend : EndSim R x.1 fs
            (.error .noBuffer, { cf with
              conf := some (.opened x.1 (S.fdInfo x.1 x.2).1.2), world := w₁ })
            (.error .noBuffer, { cf.inWorld w' with
              conf := some (.opened x.1 (S.fdInfo x.1 x.2).1.2), world := w₁' }) :=
          ⟨rfl, w₁', _, rfl, rfl, rfl, hR⟩
        obtain ⟨h1, w₂', h2, h3⟩ := closeConf_sim hS none cf.conf hend
        exact ⟨h1, w₂', h2, closeConf_conf S x.1 _ cf.conf _, h3⟩
      | some buf =>
        simp only
        have hcf : CfSim R x.1 fs
            { cf with conf := some (.opened x.1 (S.fdInfo x.1 x.2).1.2), world := w₁ }
            { cf.inWorld w' with
              conf := some (.opened x.1 (S.fdInfo x.1 x.2).1.2), world := w₁' } :=
          ⟨w₁', _, rfl, rfl, rfl, hR⟩
        have hloop := parseLoop_sim hS hL T hparse .file hcf
        obtain ⟨h1, w₂', h2, h3⟩ := closeConf_sim hS (some buf) cf.conf hloop
        exact ⟨h1, w₂', h2, closeConf_conf S x.1 _ cf.conf _, h3⟩

/-- The parser does the same in both worlds, for calls nested to any depth. -/
theorem confParse_parserSim (hS : S.Sim S' R) (hL : L.Sim L' R) (T : Table ρ) : ∀ n,
    ParserSim R (confParse S (T.lift L) n) (confParse S' (T.lift L') n) := by
  intro n
  induction n with
  | zero =>
    intro fd fs filename cf cf' h
    exact ⟨rfl, h⟩
  | succ n ih =>
    intro fd fs filename cf cf' h
    cases filename with
    | none =>
      have hloop := fun type => parseLoop_sim hS hL T ih type h
      obtain ⟨w', conf, rfl, hconf, -⟩ := h
      simp only [confParse, hconf]
      exact hloop _
    | some filename =>
      obtain ⟨w', conf, rfl, hconf, hfd, hR⟩ := h
      obtain ⟨h1, w₁', h2, h3, h4⟩ := parseFile_sim hS hL n ih filename hR
      exact ⟨h1, w₁', conf, h2, h3.trans hconf, hfd, h4⟩

/-- A parse of a file does the same in both worlds: the same result, the same words, file and view,
and related worlds. -/
theorem confParse_sim (hS : S.Sim S' R) (hL : L.Sim L' R) (T : Table ρ) (n : Nat)
    (filename : List UInt8) (fs : OpenFiles) (cf : Cf σ) {w' : τ} (h : R fs cf.world w') :
    (confParse S' (T.lift L') n (some filename) (cf.inWorld w')).1
        = (confParse S (T.lift L) n (some filename) cf).1 ∧
      ∃ w₁', (confParse S' (T.lift L') n (some filename) (cf.inWorld w')).2
          = (confParse S (T.lift L) n (some filename) cf).2.inWorld w₁' ∧
        R fs (confParse S (T.lift L) n (some filename) cf).2.world w₁' := by
  cases n with
  | zero => exact ⟨rfl, w', rfl, h⟩
  | succ n =>
    obtain ⟨h1, w₁', h2, -, h4⟩ := parseFile_sim hS hL n (confParse_parserSim hS hL T n) filename h
    exact ⟨h1, w₁', h2, h4⟩

end

end Capwap
