/-
# What a parse asks of the system, in order

`Sys.traced` keeps a log of the calls a parse makes and of what they return, and `Table.traced`
marks in it where a handler begins and ends.  Nothing else changes (`confParse_traced`).

The log of a call with a name is well bracketed (`Whole`): what it opens it closes, what it
allocates it frees, and what it does in between is its own rounds and the calls of its handlers,
which are bracketed in the same way.  A parse that returns `CW_CONF_OK` has no failure among its
own steps (`confParse_whole`), apart from `fstat`, which is only logged.
-/
import Capwap.Conf.Rounds
import Capwap.Conf.Simulate

namespace Capwap

/-! ## 1. The log

A log is a list of events, the oldest first, and each call of the system adds one, with what the
call was given and what it returned.  To emptying `cf->args` and to loading a pointer there is no
event; they cannot fail.  Nobody reads the log while the parser runs, so a parse with a log is the
parse without, by the simulation of `Conf/Simulate.lean`. -/

/-- What is logged: a call of the system with its result, or where a handler begins or ends. -/
inductive Event
  /-- `cw_open_file`, with the descriptor or -1 -/
  | opened (fd : Int)
  | stat (ok : Bool)
  /-- `cw_alloc` for the buffer -/
  | allocated (buf : Option Nat)
  | read (fd : Int) (size offset : Nat) (answer : Option (List UInt8))
  /-- `cw_array_push` or `cw_pnalloc` for a word -/
  | grown (ok : Bool)
  | called
  | returned (rv : Rv)
  | freed (buf : Nat)
  | closed (fd : Int) (ok : Bool)
deriving DecidableEq, Repr

section
variable {σ : Type}

/-- The system, keeping a log. -/
def Sys.traced (S : Sys σ) : Sys (σ × List Event) where
  openFile name w :=
    ((S.openFile name w.1).1, (S.openFile name w.1).2, w.2 ++ [.opened (S.openFile name w.1).1])
  fdInfo fd w := ((S.fdInfo fd w.1).1, (S.fdInfo fd w.1).2, w.2 ++ [.stat (S.fdInfo fd w.1).1.1])
  alloc n w := ((S.alloc n w.1).1, (S.alloc n w.1).2, w.2 ++ [.allocated (S.alloc n w.1).1])
  free p w := (S.free p w.1, w.2 ++ [.freed p])
  pread fd n off w :=
    ((S.pread fd n off w.1).1, (S.pread fd n off w.1).2,
      w.2 ++ [.read fd n off (S.pread fd n off w.1).1])
  closeFile fd w :=
    ((S.closeFile fd w.1).1, (S.closeFile fd w.1).2, w.2 ++ [.closed fd (S.closeFile fd w.1).1])
  clearArgs w := (S.clearArgs w.1, w.2)
  arrayPush w := ((S.arrayPush w.1).1, (S.arrayPush w.1).2, w.2 ++ [.grown (S.arrayPush w.1).1])
  pnalloc n w := ((S.pnalloc n w.1).1, (S.pnalloc n w.1).2, w.2 ++ [.grown (S.pnalloc n w.1).1])
  load a w := S.load a w.1

/-- Handlers do not see the log. -/
def logged : Lens (σ × List Event) σ where
  get w := w.1
  put r w := (r, w.2)
  enter w := (w.1, w.2 ++ [.called])
  leave rv w := (w.1, w.2 ++ [.returned rv])

/-- A table, marking its handlers in the log: an event when one is called, and one with what it
returns. -/
def Table.traced (T : Table σ) : Table (σ × List Event) := T.lift logged

/-- Handlers see all of the world. -/
def whole : Lens σ σ where
  get w := w
  put r _ := r
  enter w := w
  leave _ w := w

theorem Act.lift_whole : ∀ (a : Act σ) (w : σ), a.lift whole w = a := by
  intro a
  induction a with
  | ret rv view r =>
    intro w
    rfl
  | parse filename view r k ih =>
    intro w
    simp only [Act.lift, ih]
    rfl

theorem Table.lift_whole (T : Table σ) : T.lift whole = T := by
  have hcmd : Command.lift (whole : Lens σ σ) = id := by
    funext cmd
    simp only [Command.lift, Act.lift_whole]
    rfl
  have hmodule : Module.lift (whole : Lens σ σ) = id := by
    funext m
    simp [Module.lift, hcmd]
  simp only [Table.lift, hmodule, List.map_id, Act.lift_whole]
  rfl

/-- The log does not matter to the system. -/
theorem Sys.traced_sim (S : Sys σ) : S.traced.Sim S fun _ w w' => w.1 = w' where
  openFile name h := by
    subst h
    exact ⟨rfl, fun _ => rfl, fun _ => rfl⟩
  fdInfo fd h := by
    subst h
    exact ⟨rfl, rfl⟩
  alloc n h := by
    subst h
    exact ⟨rfl, rfl⟩
  free p h := by
    subst h
    rfl
  pread n h := by
    subst h
    exact ⟨rfl, rfl⟩
  closeFile h := by
    subst h
    exact ⟨rfl, rfl⟩
  clearArgs h := by
    subst h
    rfl
  arrayPush h := by
    subst h
    exact ⟨rfl, rfl⟩
  pnalloc n h := by
    subst h
    exact ⟨rfl, rfl⟩
  load a h := by
    subst h
    rfl

theorem logged_sim : (logged : Lens (σ × List Event) σ).Sim whole fun _ w w' => w.1 = w' where
  get h := h.symm
  put _ _ := rfl
  enter h := ⟨h.symm, h⟩
  leave _ h := h

/-- A part of the world, without the log: handlers are marked there. -/
def Lens.logged {ρ : Type} (L : Lens σ ρ) : Lens (σ × List Event) ρ where
  get w := L.get w.1
  put r w := (L.put r w.1, w.2)
  enter w := (L.enter w.1, w.2 ++ [.called])
  leave rv w := (L.leave rv w.1, w.2 ++ [.returned rv])

/-- Two worlds with the same log. -/
def Traced {τ : Type} (R : OpenFiles → σ → τ → Prop) (fs : OpenFiles) (w : σ × List Event)
    (w' : τ × List Event) : Prop := w'.2 = w.2 ∧ R fs w.1 w'.1

/-- Systems that answer alike log the same. -/
theorem Sys.Sim.traced {τ : Type} {S : Sys σ} {S' : Sys τ} {R : OpenFiles → σ → τ → Prop}
    (hS : S.Sim S' R) : S.traced.Sim S'.traced (Traced R) where
  openFile name h := by
    obtain ⟨hans, hinvalid, hvalid⟩ := hS.openFile name h.2
    refine ⟨hans, fun hne => ⟨?_, hinvalid hne⟩, fun hne => ⟨?_, hvalid hne⟩⟩
    · simp only [Sys.traced, hans, h.1]
    · simp only [Sys.traced, hans, h.1]
  fdInfo fd h := by
    obtain ⟨hans, hR⟩ := hS.fdInfo fd h.2
    exact ⟨hans, by simp only [Sys.traced, hans, h.1], hR⟩
  alloc n h := by
    obtain ⟨hans, hR⟩ := hS.alloc n h.2
    exact ⟨hans, by simp only [Sys.traced, hans, h.1], hR⟩
  free p h := ⟨by simp only [Sys.traced, h.1], hS.free p h.2⟩
  pread n h := by
    obtain ⟨hans, hR⟩ := hS.pread n h.2
    exact ⟨hans, by simp only [Sys.traced, hans, h.1], hR⟩
  closeFile h := by
    obtain ⟨hans, hR⟩ := hS.closeFile h.2
    exact ⟨hans, by simp only [Sys.traced, hans, h.1], hR⟩
  clearArgs h := ⟨h.1, hS.clearArgs h.2⟩
  arrayPush h := by
    obtain ⟨hans, hR⟩ := hS.arrayPush h.2
    exact ⟨hans, by simp only [Sys.traced, hans, h.1], hR⟩
  pnalloc n h := by
    obtain ⟨hans, hR⟩ := hS.pnalloc n h.2
    exact ⟨hans, by simp only [Sys.traced, hans, h.1], hR⟩
  load a h := hS.load a h.2

theorem Lens.Sim.logged {τ ρ : Type} {L : Lens σ ρ} {L' : Lens τ ρ}
    {R : OpenFiles → σ → τ → Prop} (hL : L.Sim L' R) : L.logged.Sim L'.logged (Traced R) where
  get h := hL.get h.2
  put r h := ⟨h.1, hL.put r h.2⟩
  enter h := ⟨(hL.enter h.2).1, congrArg (· ++ _) h.1, (hL.enter h.2).2⟩
  leave rv h := ⟨congrArg (· ++ _) h.1, hL.leave rv h.2⟩

/-- A parse does the same with a log and without: the same result and the same world, apart from
the log. -/
theorem confParse_traced (S : Sys σ) (T : Table σ) (n : Nat) (filename : List UInt8) (cf : Cf σ)
    (log : List Event) :
    let r := confParse S.traced T.traced n (some filename) (cf.inWorld (cf.world, log))
    confParse S T n (some filename) cf = (r.1, r.2.inWorld r.2.world.1) := by
  obtain ⟨h1, w', h2, h3⟩ := confParse_sim S.traced_sim logged_sim T n filename []
    (cf.inWorld (cf.world, log)) rfl
  rw [Table.lift_whole] at h1 h2
  exact Prod.ext h1 (h2.trans (h3 ▸ rfl))

/-! ## 2. Brackets

These are the shapes of a log, in three inductive predicates that refer to one another as the
functions do.  A file logs an opening, rounds and a closing; the rounds log reads, allocations and
handlers; and a handler logs the parses it asks for.  The `Bool` says that no step failed at this
level: what a handler does about a parse that failed is its own affair, and only what it returns
counts. -/

mutual

/-- What the rounds of a loop log; `true` when none of their steps failed. -/
inductive Ran : Bool → List Event → Prop
  | nil : Ran true []
  | read (fd : Int) (size offset : Nat) (answer : Option (List UInt8)) :
      Ran (answer.map List.length == some size) [.read fd size offset answer]
  | grown (ok : Bool) : Ran ok [.grown ok]
  | handler {log : List Event} (h : Asked log) (rv : Rv) :
      Ran (rv == .ok) (.called :: log ++ [.returned rv])
  | append {ok ok' : Bool} {log log' : List Event} (h : Ran ok log) (h' : Ran ok' log') :
      Ran (ok && ok') (log ++ log')

/-- What the parses log that a handler asks for, whether they succeed or not: of the text it is in,
and of other files. -/
inductive Asked : List Event → Prop
  | nil : Asked []
  | here {ok : Bool} {log : List Event} (h : Ran ok log) : Asked log
  | file {ok : Bool} {log : List Event} (h : Whole ok log) : Asked log
  | append {log log' : List Event} (h : Asked log) (h' : Asked log') : Asked (log ++ log')

/-- What the parse of a file logs; `true` when none of its own steps failed, `fstat` excepted.  The
three cases are the exits of `cw_conf_parse`: the file does not open, there is no buffer, or the
rounds are run, whatever comes of them, and both are given back. -/
inductive Whole : Bool → List Event → Prop
  | openFailed : Whole false [.opened invalidFile]
  | noBuffer {fd : Int} (hfd : fd ≠ invalidFile) (stat ok : Bool) :
      Whole false [.opened fd, .stat stat, .allocated none, .closed fd ok]
  | file {fd : Int} (hfd : fd ≠ invalidFile) (stat : Bool) (buf : Nat) {ran : Bool}
      {log : List Event} (h : Ran ran log) (ok : Bool) :
      Whole (ran && ok)
        (.opened fd :: .stat stat :: .allocated (some buf) :: log ++ [.freed buf, .closed fd ok])

end

/-! ## 3. What a parse logs

The functions are followed from the inside out: a refill and a word, a round of the tokenizer, a
call of it, a handler, a round of the parser, the loop, and the file around it.  At each there is
one statement, that what was logged since the start has the shape it should, and that it is `true`
where the result is a success. -/

/-- Between two worlds, `log` was logged. -/
def Logged (w w' : σ × List Event) (log : List Event) : Prop := w'.2 = w.2 ++ log

theorem Logged.refl (w : σ × List Event) : Logged w w [] := (List.append_nil _).symm

theorem Logged.trans {w w' w'' : σ × List Event} {log log' : List Event} (h : Logged w w' log)
    (h' : Logged w' w'' log') : Logged w w'' (log ++ log') := by
  unfold Logged at *
  rw [h', h, List.append_assoc]

variable {S : Sys σ} {T : Table σ}

theorem traced_pread {fd : Int} {n off : Nat} {w w' : σ × List Event}
    {answer : Option (List UInt8)} (h : S.traced.pread fd n off w = (answer, w')) :
    Logged w w' [.read fd n off answer] := by
  obtain ⟨rfl, rfl⟩ := Prod.ext_iff.mp h
  rfl

theorem traced_arrayPush {w w' : σ × List Event} {ok : Bool}
    (h : S.traced.arrayPush w = (ok, w')) : Logged w w' [.grown ok] := by
  obtain ⟨rfl, rfl⟩ := Prod.ext_iff.mp h
  rfl

theorem traced_pnalloc {n : Nat} {w w' : σ × List Event} {ok : Bool}
    (h : S.traced.pnalloc n w = (ok, w')) : Logged w w' [.grown ok] := by
  obtain ⟨rfl, rfl⟩ := Prod.ext_iff.mp h
  rfl

/-- The rounds between two worlds went well so far. -/
def RanWell (w w' : σ × List Event) : Prop := ∃ log, Logged w w' log ∧ Ran true log

/-- The rounds between two worlds, which went well if `P` holds: a result that says so is right. -/
def RanTo (w w' : σ × List Event) (P : Prop) : Prop :=
  ∃ ok log, Logged w w' log ∧ Ran ok log ∧ (P → ok = true)

theorem RanWell.refl (w : σ × List Event) : RanWell w w := ⟨[], .refl w, .nil⟩

theorem RanWell.trans {w w' w'' : σ × List Event} (h : RanWell w w') (h' : RanWell w' w'') :
    RanWell w w'' := by
  obtain ⟨log, hlog, hran⟩ := h
  obtain ⟨log', hlog', hran'⟩ := h'
  exact ⟨log ++ log', hlog.trans hlog', .append hran hran'⟩

theorem RanWell.ranTo {w w' w'' : σ × List Event} {P : Prop} (h : RanWell w w')
    (h' : RanTo w' w'' P) : RanTo w w'' P := by
  obtain ⟨log, hlog, hran⟩ := h
  obtain ⟨ok, log', hlog', hran', hok⟩ := h'
  exact ⟨true && ok, log ++ log', hlog.trans hlog', .append hran hran', by simpa using hok⟩

theorem RanTo.refl (w : σ × List Event) (P : Prop) : RanTo w w P :=
  ⟨true, [], .refl w, .nil, fun _ => rfl⟩

theorem RanWell.to {w w' : σ × List Event} (h : RanWell w w') (P : Prop) : RanTo w w' P :=
  h.ranTo (.refl w' P)

/-- A result that is a code. -/
def TokenResult.Ok (r : TokenResult σ) : Prop := ∃ rc, r.rc = .ok rc

/-- What a round of the tokenizer logs: it went well so far if the loop goes on, and if the call
ends with a code. -/
def TokenLogs (w : σ × List Event) (x : Step (Tok (σ × List Event))
    (TokenResult (σ × List Event))) : Prop :=
  (∀ t, x = .next t → RanWell w t.world) ∧ ∀ r, x = .done r → RanTo w r.world r.Ok

theorem TokenLogs.next {w : σ × List Event} {t : Tok (σ × List Event)} (h : RanWell w t.world) :
    TokenLogs w (.next t) := by
  refine ⟨?_, by simp⟩
  rintro _ ⟨⟩
  exact h

theorem TokenLogs.done {w : σ × List Event} {r : TokenResult (σ × List Event)}
    (h : RanTo w r.world r.Ok) : TokenLogs w (.done r) := by
  refine ⟨by simp, ?_⟩
  rintro _ ⟨⟩
  exact h

/-- A round that fails may have logged a failure. -/
theorem TokenLogs.fail {w w' : σ × List Event} {ok : Bool} {log : List Event}
    (hlog : Logged w w' log) (hran : Ran ok log) (args : List Word) (conf : ConfFile)
    (e : TokenError) : TokenLogs w (.done ⟨.error e, args, conf, w'⟩) := by
  refine .done ⟨ok, log, hlog, hran, ?_⟩
  rintro ⟨rc, hrc⟩
  cases hrc

/-- A refill logs its read. -/
theorem refill_logs (t : Tok (σ × List Event)) : TokenLogs t.world (refill S.traced t) := by
  have href := refill_refills S.traced t
  generalize refill S.traced t = x at href
  cases href with
  | inside _ => exact .next (.refl _)
  | fileDone _ _ _ _ => exact .done (.refl _ _)
  | unfinished _ _ _ => exact .done (.refl _ _)
  | tooLong _ _ => exact .done (.refl _ _)
  | readFailed _ hread => exact .fail (traced_pread hread) (.read _ _ _ _) _ _ _
  | readShort _ hread _ => exact .fail (traced_pread hread) (.read _ _ _ _) _ _ _
  | @filled n bs w _ hread hlen =>
    refine .next ⟨_, traced_pread hread, ?_⟩
    have hran := Ran.read t.conf.file.fd n t.conf.file.offset (some bs)
    simpa [hlen] using hran

/-- A word logs its allocations. -/
theorem pushWord_logs (t : Tok (σ × List Event)) (stop : Nat) (c : UInt8) :
    TokenLogs t.world (pushWord S.traced t stop c) := by
  have hpush := pushWord_pushes S.traced t stop c
  generalize pushWord S.traced t stop c = x at hpush
  cases hpush with
  | noElement hpush => exact .fail (traced_arrayPush hpush) (.grown false) _ _ _
  | noData hpush hdata =>
    exact .fail ((traced_arrayPush hpush).trans (traced_pnalloc hdata))
      (.append (.grown true) (.grown false)) _ _ _
  | @pushed w w' _ hpush hdata hr =>
    have hwell : RanWell t.world w' :=
      ⟨_, (traced_arrayPush hpush).trans (traced_pnalloc hdata),
        .append (.grown true) (.grown true)⟩
    rcases hr with ⟨-, rfl⟩ | ⟨-, rfl⟩ | ⟨-, -, rfl⟩
    · exact .done (hwell.to _)
    · exact .done (hwell.to _)
    · exact .next hwell

theorem scan_logs (t : Tok (σ × List Event)) : TokenLogs t.world (scan S.traced t) := by
  cases hc : t.conf.buffer.bytes[t.conf.buffer.pos]? with
  | none =>
    unfold scan
    simp only [hc]
    exact .done (.refl _ _)
  | some c =>
    obtain ⟨f, mv, hb⟩ : ∃ f mv, scanByte t.flags t.args.length c = (f, mv) := ⟨_, _, rfl⟩
    rw [scan_eq S.traced hc hb]
    cases mv with
    | go => exact .next (.refl _)
    | mark skip => exact .next (.refl _)
    | word =>
      exact pushWord_logs { t with flags := f, conf := t.conf.advance c } t.conf.buffer.pos c
    | ret rc => exact .done (.refl _ _)
    | fail => exact .done (.refl _ _)

theorem tokenStep_logs (t : Tok (σ × List Event)) : TokenLogs t.world (tokenStep S.traced t) := by
  have hrefill := refill_logs (S := S) t
  unfold tokenStep
  cases hr : refill S.traced t with
  | done r =>
    rw [hr] at hrefill
    exact hrefill
  | next t' =>
    have hwell := hrefill.1 t' hr
    have hscan := scan_logs (S := S) t'
    exact ⟨fun t'' hs => hwell.trans (hscan.1 t'' hs), fun r hs => hwell.ranTo (hscan.2 r hs)⟩

/-- A call of the tokenizer logs its reads and allocations, none of which failed if it returns a
code. -/
theorem readToken_logs (conf : ConfFile) (w : σ × List Event) :
    RanTo w (readToken S.traced conf w).world (readToken S.traced conf w).Ok := by
  unfold readToken
  split
  · rename_i r hrun
    refine Loop.run_invariant (I := fun t : Tok (σ × List Event) => RanWell w t.world)
      (P := fun r : TokenResult (σ × List Event) => RanTo w r.world r.Ok) ?_ ?_ ?_ hrun
    · intro t t' ht hs
      exact ht.trans ((tokenStep_logs t).1 t' hs)
    · intro t r ht hs
      exact ht.ranTo ((tokenStep_logs t).2 r hs)
    · exact .refl w
  · exact .refl w _

/-- A parser that logs what a handler may have asked for. -/
def ParserLogs (parse : Parser (σ × List Event)) : Prop :=
  ∀ filename cf, ∃ log, Logged cf.world (parse filename cf).2.world log ∧ Asked log

variable {parse : Parser (σ × List Event)}

/-- A handler logs the parses it asks for, and what it returns.  The induction is on the handler. -/
theorem Act.run_logs (hparse : ParserLogs parse) : ∀ (a : Act σ) (w : σ × List Event)
    (cf : Cf (σ × List Event)), ∃ log, Asked log ∧
      Logged w ((a.lift logged w).run parse cf).2.world
        (log ++ [.returned ((a.lift logged w).run parse cf).1]) := by
  intro a
  induction a with
  | ret rv view r =>
    intro w cf
    exact ⟨[], .nil, rfl⟩
  | parse filename view r k ih =>
    intro w cf
    obtain ⟨log, hlog, hasked⟩ := hparse filename { cf with view := view, world := (r, w.2) }
    obtain ⟨log', hasked', hlog'⟩ := ih _ _ _ _ (parse filename
      { cf with view := view, world := (r, w.2) }).2.world (parse filename
        { cf with view := view, world := (r, w.2) }).2
    refine ⟨log ++ log', .append hasked hasked', ?_⟩
    have hall := hlog.trans hlog'
    rw [← List.append_assoc] at hall
    exact hall

/-- The handlers that a round can call are lifted ones. -/
theorem Called.traced {rc : Rc} {cf : Cf (σ × List Event)} {a : Act (σ × List Event)}
    {back : Rv → Cf (σ × List Event) → Step (Cf (σ × List Event))
      (Except ParseError Unit × Cf (σ × List Event))}
    (h : Called S.traced T.traced rc cf a back) :
    ∃ a₀ : Act σ, a = a₀.lift logged (logged.enter cf.world) := by
  cases h with
  | custom _ _ => exact ⟨_, rfl⟩
  | set _ hfind _ =>
    unfold Table.traced Table.lift at hfind
    rw [findCommand_lift] at hfind
    generalize findCommand cf.view _ false T.modules = found at hfind
    cases found with
    | notAllowed => cases hfind
    | unknown => cases hfind
    | command m cmd =>
      cases hfind
      exact ⟨_, rfl⟩

/-- What a round of the parser logs. -/
def RoundLogs (w : σ × List Event) (x : Step (Cf (σ × List Event))
    (Except ParseError Unit × Cf (σ × List Event))) : Prop :=
  (∀ cf, x = .next cf → RanWell w cf.world) ∧
    ∀ r, x = .done r → RanTo w r.2.world (r.1 = .ok ())

theorem RoundLogs.next {w : σ × List Event} {cf : Cf (σ × List Event)} (h : RanWell w cf.world) :
    RoundLogs w (.next cf) := by
  refine ⟨?_, by simp⟩
  rintro _ ⟨⟩
  exact h

theorem RoundLogs.done {w : σ × List Event} {r : Except ParseError Unit × Cf (σ × List Event)}
    (h : RanTo w r.2.world (r.1 = .ok ())) : RoundLogs w (.done r) := by
  refine ⟨by simp, ?_⟩
  rintro _ ⟨⟩
  exact h

/-- A token and the handler behind it.  If the handler is not called, the round logs the token
only. -/
theorem parseStep_logs (hparse : ParserLogs parse) (type : ParseType) (cf : Cf (σ × List Event)) :
    RoundLogs cf.world (parseStep S.traced T.traced parse type cf) := by
  cases hconf : cf.conf with
  | none =>
    unfold parseStep
    simp only [hconf]
    exact .done (.refl _ _)
  | some conf =>
    rw [parseStep_eq S.traced T.traced parse type hconf]
    have hlogs := readToken_logs (S := S) conf cf.world
    have hcomes := tokenHead_comes S.traced T.traced type (readToken S.traced conf cf.world).rc
      (cf.took (readToken S.traced conf cf.world))
    unfold roundHead
    generalize tokenHead S.traced T.traced type (readToken S.traced conf cf.world).rc
      (cf.took (readToken S.traced conf cf.world)) = head at hcomes
    cases hcomes with
    | done res hok =>
      refine .done ?_
      obtain ⟨ok, log, hlog, hran, htoken⟩ := hlogs
      refine ⟨ok, log, hlog, hran, fun hres => htoken ?_⟩
      rcases hok hres with ⟨hrc, -⟩ | ⟨hrc, -⟩
      · exact ⟨_, hrc⟩
      · exact ⟨_, hrc⟩
    | call hrc _ ha =>
      -- the token went well, and the handler is bracketed
      have htoken : RanWell cf.world (readToken S.traced conf cf.world).world := by
        obtain ⟨ok, log, hlog, hran, hok⟩ := hlogs
        obtain rfl := hok ⟨_, hrc⟩
        exact ⟨log, hlog, hran⟩
      obtain ⟨a₀, rfl⟩ := ha.traced
      obtain ⟨log, hasked, hlog⟩ := Act.run_logs hparse a₀
        (logged.enter (cf.took (readToken S.traced conf cf.world)).world)
        (cf.took (readToken S.traced conf cf.world))
      simp only [Head.resume]
      generalize (a₀.lift logged (logged.enter (cf.took (readToken S.traced conf
        cf.world)).world)).run parse (cf.took (readToken S.traced conf cf.world)) = res at hlog ⊢
      have hcalled : Logged (readToken S.traced conf cf.world).world res.2.world
          (.called :: log ++ [.returned res.1]) := by
        have henter : Logged (readToken S.traced conf cf.world).world
          (logged.enter (cf.took (readToken S.traced conf cf.world)).world) [.called] := rfl
        exact henter.trans hlog
      have hran := Ran.handler hasked res.1
      rcases ha.back res.1 res.2 with ⟨hrv, hback⟩ | ⟨-, e, hback⟩
      · rw [hback]
        rw [hrv] at hran hcalled
        exact .next (htoken.trans ⟨_, hcalled, hran⟩)
      · rw [hback]
        exact .done (htoken.ranTo ⟨_, _, hcalled, hran, by simp⟩)

/-- A loop logs its rounds. -/
theorem parseLoop_logs (hparse : ParserLogs parse) (type : ParseType) (cf : Cf (σ × List Event)) :
    RanTo cf.world (parseLoop S.traced T.traced parse type cf).2.world
      ((parseLoop S.traced T.traced parse type cf).1 = .ok ()) := by
  unfold parseLoop
  split
  · rename_i r hrun
    refine Loop.run_invariant (I := fun cf' : Cf (σ × List Event) => RanWell cf.world cf'.world)
      (P := fun r : Except ParseError Unit × Cf (σ × List Event) =>
        RanTo cf.world r.2.world (r.1 = .ok ())) ?_ ?_ (.refl _) hrun
    · intro cf₁ cf₂ h hs
      exact h.trans ((parseStep_logs hparse type cf₁).1 cf₂ hs)
    · intro cf₁ r h hs
      exact h.ranTo ((parseStep_logs hparse type cf₁).2 r hs)
  · exact .refl _ _

/-- The end of a file logs that the buffer is freed, if there is one, and the file closed. -/
theorem closeConf_logs (fd : Int) (buf : Option Nat) (prev : Option ConfFile)
    (r : Except ParseError Unit × Cf (σ × List Event)) :
    ∃ ok, Logged r.2.world (closeConf S.traced fd buf prev r).2.world
        (buf.toList.map .freed ++ [.closed fd ok]) ∧
      ((closeConf S.traced fd buf prev r).1 = .ok () → r.1 = .ok () ∧ ok = true) := by
  unfold closeConf
  cases buf with
  | none =>
    simp only [Option.toList_none, List.map_nil, List.nil_append]
    refine ⟨(S.closeFile fd r.2.world.1).1, ?_⟩
    have hclose : S.traced.closeFile fd r.2.world = ((S.closeFile fd r.2.world.1).1,
      (S.closeFile fd r.2.world.1).2,
        r.2.world.2 ++ [.closed fd (S.closeFile fd r.2.world.1).1]) := rfl
    rw [hclose]
    cases (S.closeFile fd r.2.world.1).1 with
    | true => exact ⟨rfl, fun h => ⟨h, rfl⟩⟩
    | false => exact ⟨rfl, fun h => by cases h⟩
  | some p =>
    simp only [Option.toList_some, List.map_cons, List.map_nil]
    refine ⟨(S.closeFile fd (S.free p r.2.world.1)).1, ?_⟩
    have hclose : S.traced.closeFile fd (S.traced.free p r.2.world)
        = ((S.closeFile fd (S.free p r.2.world.1)).1, (S.closeFile fd (S.free p r.2.world.1)).2,
          (r.2.world.2 ++ [.freed p]) ++ [.closed fd (S.closeFile fd (S.free p r.2.world.1)).1]) :=
      rfl
    rw [hclose]
    cases (S.closeFile fd (S.free p r.2.world.1)).1 with
    | true => exact ⟨List.append_assoc _ _ _, fun h => ⟨h, rfl⟩⟩
    | false => exact ⟨List.append_assoc _ _ _, fun h => by cases h⟩

/-- The parse of a file, once nested parses are known to log what they should. -/
theorem parseFile_logs (n : Nat) (hparse : ParserLogs (confParse S.traced T.traced n))
    (filename : List UInt8) (cf : Cf (σ × List Event)) :
    ∃ ok log, Logged cf.world
        (confParse S.traced T.traced (n + 1) (some filename) cf).2.world log ∧ Whole ok log ∧
      ((confParse S.traced T.traced (n + 1) (some filename) cf).1 = .ok () → ok = true) := by
  have hopened : Logged cf.world (S.traced.openFile filename cf.world).2
    [.opened (S.traced.openFile filename cf.world).1] := rfl
  simp only [confParse]
  by_cases hopen : (S.traced.openFile filename cf.world).1 = invalidFile
  · rw [if_pos hopen]
    rw [hopen] at hopened
    exact ⟨false, _, hopened, .openFailed, fun h => by cases h⟩
  rw [if_neg hopen]
  generalize S.traced.openFile filename cf.world = fd at hopen hopened ⊢
  have hstat : Logged fd.2 (S.traced.fdInfo fd.1 fd.2).2 [.stat (S.traced.fdInfo fd.1 fd.2).1.1] :=
    rfl
  generalize S.traced.fdInfo fd.1 fd.2 = info at hstat ⊢
  have halloc : Logged info.2 (S.traced.alloc confBuffer info.2).2
    [.allocated (S.traced.alloc confBuffer info.2).1] := rfl
  cases ha : S.traced.alloc confBuffer info.2 with
  | mk buf w =>
    rw [ha] at halloc
    have hset := (hopened.trans hstat).trans halloc
    cases buf with
    | none =>
      simp only
      obtain ⟨ok, hlog, hok⟩ := closeConf_logs (S := S) fd.1 none cf.conf
        (.error .noBuffer, { cf with conf := some (.opened fd.1 info.1.2), world := w })
      refine ⟨false, _, hset.trans hlog, .noBuffer hopen info.1.1 ok, fun h => ?_⟩
      cases (hok h).1
    | some buf =>
      simp only
      obtain ⟨ran, log, hran, hrounds, hgood⟩ := parseLoop_logs (T := T) hparse .file
        { cf with conf := some (.opened fd.1 info.1.2), world := w }
      generalize parseLoop S.traced T.traced (confParse S.traced T.traced n) .file
        { cf with conf := some (.opened fd.1 info.1.2), world := w } = r at hran hgood ⊢
      obtain ⟨ok, hlog, hok⟩ := closeConf_logs (S := S) fd.1 (some buf) cf.conf r
      refine ⟨ran && ok, _, (hset.trans hran).trans hlog, ?_, fun h => ?_⟩
      · have hwhole := Whole.file hopen info.1.1 buf hrounds ok
        simpa using hwhole
      · obtain ⟨hr, rfl⟩ := hok h
        rw [hgood hr]
        rfl

/-- Nested parses log what a handler may have asked for, to any depth.  The induction is on the
depth. -/
theorem confParse_parserLogs (S : Sys σ) (T : Table σ) : ∀ n,
    ParserLogs (confParse S.traced T.traced n) := by
  intro n
  induction n with
  | zero =>
    intro filename cf
    exact ⟨[], .refl _, .nil⟩
  | succ n ih =>
    intro filename cf
    cases filename with
    | none =>
      cases hconf : cf.conf with
      | none =>
        simp only [confParse, hconf]
        exact ⟨[], .refl _, .nil⟩
      | some conf =>
        simp only [confParse, hconf]
        obtain ⟨ok, log, hlog, hran, -⟩ := parseLoop_logs (S := S) (T := T) ih
          (if conf.file.fd ≠ invalidFile then .block else .param) cf
        exact ⟨log, hlog, .here hran⟩
    | some filename =>
      obtain ⟨ok, log, hlog, hwhole, -⟩ := parseFile_logs n ih filename cf
      exact ⟨log, hlog, .file hwhole⟩

/-- **The log of a parse of a file is well bracketed**, and has no failure of its own if the parse
succeeds. -/
theorem confParse_whole (S : Sys σ) (T : Table σ) (n : Nat) (filename : List UInt8)
    (cf : Cf (σ × List Event)) :
    ∃ ok log, Logged cf.world
        (confParse S.traced T.traced (n + 1) (some filename) cf).2.world log ∧ Whole ok log ∧
      ((confParse S.traced T.traced (n + 1) (some filename) cf).1 = .ok () → ok = true) :=
  parseFile_logs n (confParse_parserLogs S T n) filename cf

/-! ## 4. Counting

What the brackets are good for: in a log of this shape every `open` that succeeded has its `close`,
and every buffer its `free`.  Each shape settles its accounts, so do two in a row, and the proof
goes along the derivation. -/

/-- The descriptor `fd` is passed to `close`. -/
def Event.closes (fd : Int) : Event → Bool
  | .closed fd' _ => fd' == fd
  | _ => false

/-- Every descriptor is closed as often as it is opened, and every buffer freed as often as it is
allocated, at whatever depth. -/
structure Settled (log : List Event) : Prop where
  files : ∀ fd, fd ≠ invalidFile → log.countP (Event.closes fd) = log.count (.opened fd)
  buffers : ∀ buf, log.count (.freed buf) = log.count (.allocated (some buf))

theorem Settled.nil : Settled [] := ⟨fun _ _ => rfl, fun _ => rfl⟩

theorem Settled.append {log log' : List Event} (h : Settled log) (h' : Settled log') :
    Settled (log ++ log') where
  files fd hfd := by
    rw [List.countP_append, List.count_append, h.files fd hfd, h'.files fd hfd]
  buffers buf := by
    rw [List.count_append, List.count_append, h.buffers buf, h'.buffers buf]

mutual

theorem Ran.settled : ∀ {ok : Bool} {log : List Event}, Ran ok log → Settled log
  | _, _, .nil => .nil
  | _, _, .read _ _ _ _ => ⟨fun _ _ => rfl, fun _ => rfl⟩
  | _, _, .grown _ => ⟨fun _ _ => rfl, fun _ => rfl⟩
  | _, _, .handler h _ =>
    have hcalled : Settled [.called] := ⟨fun _ _ => rfl, fun _ => rfl⟩
    (hcalled.append h.settled).append ⟨fun _ _ => rfl, fun _ => rfl⟩
  | _, _, .append h h' => h.settled.append h'.settled

theorem Asked.settled : ∀ {log : List Event}, Asked log → Settled log
  | _, .nil => .nil
  | _, .here h => h.settled
  | _, .file h => h.settled
  | _, .append h h' => h.settled.append h'.settled

theorem Whole.settled : ∀ {ok : Bool} {log : List Event}, Whole ok log → Settled log
  | _, _, .openFailed =>
    ⟨fun fd hfd => by simp [Event.closes, hfd.symm], fun _ => rfl⟩
  | _, _, .noBuffer _ _ _ =>
    ⟨fun fd hfd => by simp [Event.closes, List.count_cons, List.countP_cons], fun _ => rfl⟩
  | _, _, .file _ _ buf h _ => by
    have hin := h.settled
    constructor
    · intro fd hfd
      have hfiles := hin.files fd hfd
      simp [Event.closes, List.count_cons, List.countP_cons, hfiles]
    · intro p
      have hbuffers := hin.buffers p
      simp [List.count_cons, hbuffers]

end

end

end Capwap
