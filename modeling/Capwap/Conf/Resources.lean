/-
# The parser gives back what it takes

`cw_conf_parse` opens a file and allocates a buffer for it, and a handler may have it do so again
before the first file is closed.  The buffers and descriptors held at a moment are two stacks, and
an assertion about the world is indexed by them.  If the system's calls push and pop as they
should (`Sys.Disciplined`) and handlers keep the assertion for any stacks (`Act.Keeps`), then a
parse, whether it succeeds or fails, ends with the stacks it started with (`confParse_keeps`).
The assertion may also speak of the view that handlers share (`confParse_upholds`).

The tokenizer takes no part in this: it keeps whatever the four calls it makes keep
(`readToken_keeps`).
-/
import Capwap.Conf.Parse

namespace Capwap

section
variable {σ : Type} {S : Sys σ}

/-! ## 1. The tokenizer

The tokenizer asks the system for four things: to empty `cf->args`, to make room for an element or
for the bytes of a word, and to read.  An assertion that these four keep is kept by every call,
whatever the text is and whatever they answer; nothing else about the tokenizer matters here. -/

/-- The calls the tokenizer makes keep `J`. -/
structure Sys.Keeps (S : Sys σ) (J : σ → Prop) : Prop where
  clearArgs : ∀ w, J w → J (S.clearArgs w)
  arrayPush : ∀ w, J w → J (S.arrayPush w).2
  pnalloc : ∀ n w, J w → J (S.pnalloc n w).2
  pread : ∀ fd n off w, J w → J (S.pread fd n off w).2

variable {J : σ → Prop}

/-- What a round of the tokenizer ends with keeps `J`. -/
def StepKeeps (J : σ → Prop) (r : Step (Tok σ) (TokenResult σ)) : Prop :=
  (∀ t, r = .next t → J t.world) ∧ ∀ res, r = .done res → J res.world

theorem StepKeeps.next {t : Tok σ} (h : J t.world) : StepKeeps J (.next t) := by
  constructor
  · rintro _ ⟨⟩
    exact h
  · rintro _ ⟨⟩

theorem StepKeeps.done {r : TokenResult σ} (h : J r.world) : StepKeeps J (.done r) := by
  constructor
  · rintro _ ⟨⟩
  · rintro _ ⟨⟩
    exact h

theorem refill_keeps (hS : S.Keeps J) {t : Tok σ} (h : J t.world) : StepKeeps J (refill S t) := by
  unfold refill readFile
  simp only
  split
  · split
    · split
      · exact .done h
      · exact .done h
    · split
      · exact .done h
      · generalize hsize : (if t.conf.file.size - t.conf.file.offset > _ then _ else _) = size
        have hread := hS.pread t.conf.file.fd size t.conf.file.offset t.world h
        cases hp : S.pread t.conf.file.fd size t.conf.file.offset t.world with
        | mk ans w =>
          rw [hp] at hread
          cases ans with
          | none => exact .done hread
          | some bs =>
            simp only
            split
            · exact .done hread
            · exact .next hread
  · exact .next h

theorem pushWord_keeps (hS : S.Keeps J) {t : Tok σ} (h : J t.world) (stop : Nat) (ch : UInt8) :
    StepKeeps J (pushWord S t stop ch) := by
  have hpush := hS.arrayPush t.world h
  unfold pushWord
  cases hp : S.arrayPush t.world with
  | mk ok w =>
    rw [hp] at hpush
    cases ok with
    | false => exact .done hpush
    | true =>
      have halloc := hS.pnalloc (stop - t.start + 1) w hpush
      simp only
      cases ha : S.pnalloc (stop - t.start + 1) w with
      | mk ok' w' =>
        rw [ha] at halloc
        cases ok' with
        | false => exact .done halloc
        | true =>
          simp only
          split
          · exact .done halloc
          · split
            · exact .done halloc
            · exact .next halloc

theorem scan_keeps (hS : S.Keeps J) {t : Tok σ} (h : J t.world) : StepKeeps J (scan S t) := by
  unfold scan
  simp only
  split
  · exact .done h
  · split
    · exact .next h
    · exact .next h
    · refine pushWord_keeps hS ?_ _ _
      exact h
    · exact .done h
    · exact .done h

theorem tokenStep_keeps (hS : S.Keeps J) {t : Tok σ} (h : J t.world) :
    StepKeeps J (tokenStep S t) := by
  have hrefill := refill_keeps hS h
  unfold tokenStep
  cases hr : refill S t with
  | done r => exact .done (hrefill.2 r hr)
  | next t' => exact scan_keeps hS (hrefill.1 t' hr)

/-- A call of the tokenizer keeps what its calls keep.  The loop is bounded, and each round makes a
few calls in a row. -/
theorem readToken_keeps (hS : S.Keeps J) (conf : ConfFile) {w : σ} (h : J w) :
    J (readToken S conf w).world := by
  unfold readToken
  split
  · rename_i r hrun
    exact Loop.run_invariant (I := fun t : Tok σ => J t.world) (P := fun r => J r.world)
      (fun t t' ht hs => (tokenStep_keeps hS ht).1 t' hs)
      (fun t r ht hs => (tokenStep_keeps hS ht).2 r hs) (hS.clearArgs w h) hrun
  · exact h

/-! ## 2. Handlers

What a handler does is not known; what can be asked of it is that it keeps an assertion, step by
step, in between the parses it asks for.  There are three forms of the request.  `Upholds` is the
general one, about the view and the world; `Keeps` is for the world alone; `Within` says how a
handler may move the world, and implies `Keeps` for whatever such moves keep. -/

/-- A handler at work upholds `K`, an assertion about the view and the world: at its end, at every
parse it asks for, and afterwards, provided that the parse does. -/
def Act.Upholds (K : View → σ → Prop) : Act σ → Prop
  | .ret _ view w => K view w
  | .parse _ view w k =>
    K view w ∧ ∀ rv view' args w', K view' w' → (k rv view' args w').Upholds K

/-- Every handler of a table upholds `K` where the parser calls it: for a command that is allowed
there, with the pointer the parser hands over. -/
structure Table.Upholds (S : Sys σ) (T : Table σ) (K : View → σ → Prop) : Prop where
  set : ∀ m ∈ T.modules, ∀ cmds, m.commands = some cmds → ∀ cmd ∈ cmds, ∀ view args w,
    K view w → cmd.type &&& view.cmdType ≠ 0 →
      (cmd.set view args (confPointer S view m cmd w) w).Upholds K
  custom : ∀ handler view args w, K view w → (T.custom handler view args w).Upholds K

/-- A parser that upholds `K`. -/
def ParserUpholds (K : View → σ → Prop) (parse : Parser σ) : Prop :=
  ∀ filename cf, K cf.view cf.world → K (parse filename cf).2.view (parse filename cf).2.world

/-- A handler at work keeps `J`: at its end, at every parse it asks for, and afterwards,
provided that the parse does. -/
def Act.Keeps (J : σ → Prop) : Act σ → Prop
  | .ret _ _ w => J w
  | .parse _ _ w k => J w ∧ ∀ rv view args w, J w → (k rv view args w).Keeps J

/-- Every handler of a table keeps `J`. -/
structure Table.Keeps (T : Table σ) (J : σ → Prop) : Prop where
  set : ∀ m ∈ T.modules, ∀ cmds, m.commands = some cmds → ∀ cmd ∈ cmds,
    ∀ view args p w, J w → (cmd.set view args p w).Keeps J
  custom : ∀ handler view args w, J w → (T.custom handler view args w).Keeps J

/-- A handler at work moves the world by `R`, from one parse it asks for to the next. -/
def Act.Within (R : σ → σ → Prop) (w : σ) : Act σ → Prop
  | .ret _ _ w' => R w w'
  | .parse _ _ w' k => R w w' ∧ ∀ rv view args w'', (k rv view args w'').Within R w''

/-- Every handler of a table moves the world by `R`. -/
structure Table.Within (T : Table σ) (R : σ → σ → Prop) : Prop where
  set : ∀ m ∈ T.modules, ∀ cmds, m.commands = some cmds → ∀ cmd ∈ cmds,
    ∀ view args p w, (cmd.set view args p w).Within R w
  custom : ∀ handler view args w, (T.custom handler view args w).Within R w

/-- What such moves keep, a handler keeps. -/
theorem Act.Within.keeps {R : σ → σ → Prop} (hR : ∀ w w', R w w' → J w → J w') :
    ∀ {a : Act σ} {w : σ}, a.Within R w → J w → a.Keeps J := by
  intro a
  induction a with
  | ret rv view w' =>
    intro w h hw
    exact hR _ _ h hw
  | parse filename view w' k ih =>
    intro w h hw
    refine ⟨hR _ _ h.1 hw, ?_⟩
    intro rv view args w'' hw''
    exact ih rv view args w'' (h.2 rv view args w'') hw''

/-- A parser that keeps `J`. -/
def ParserKeeps (J : σ → Prop) (parse : Parser σ) : Prop :=
  ∀ filename cf, J cf.world → J (parse filename cf).2.world

theorem Act.Keeps.upholds : ∀ {a : Act σ}, a.Keeps J → a.Upholds fun _ => J := by
  intro a
  induction a with
  | ret rv view w =>
    intro h
    exact h
  | parse filename view w k ih =>
    intro h
    exact ⟨h.1, fun rv view args w hw => ih rv view args w (h.2 rv view args w hw)⟩

theorem Table.Keeps.upholds {T : Table σ} (hT : T.Keeps J) : T.Upholds S fun _ => J where
  set m hm cmds hcmds cmd hcmd view args w hw _ :=
    (hT.set m hm cmds hcmds cmd hcmd view args _ w hw).upholds
  custom handler view args w hw := (hT.custom handler view args w hw).upholds

variable {T : Table σ} {parse : Parser σ} {K : View → σ → Prop}

/-- The induction is on the handler. -/
theorem Act.run_upholds (hparse : ParserUpholds K parse) : ∀ {a : Act σ} (cf : Cf σ),
    a.Upholds K → K (a.run parse cf).2.view (a.run parse cf).2.world := by
  intro a
  induction a with
  | ret rv view w =>
    intro cf h
    exact h
  | parse filename view w k ih =>
    intro cf h
    have hw := hparse filename { cf with view := view, world := w } h.1
    exact ih _ _ _ _ _ (h.2 _ _ _ _ hw)

/-- The command found is one of the table's, and it is allowed where it stands. -/
theorem findIn_mem {view : View} {m : Module σ} {name : Word} {cmd : Command σ} :
    ∀ {cmds : List (Command σ)} {found b : Bool}, findIn view m name found cmds = (b, some cmd) →
      cmd ∈ cmds ∧ cmd.type &&& view.cmdType ≠ 0 := by
  intro cmds
  induction cmds with
  | nil =>
    intro found b h
    simp [findIn] at h
  | cons c cmds ih =>
    intro found b h
    have hlater : ∀ {found : Bool}, findIn view m name found cmds = (b, some cmd) →
        cmd ∈ c :: cmds ∧ cmd.type &&& view.cmdType ≠ 0 :=
      fun h => ⟨List.mem_cons_of_mem _ (ih h).1, (ih h).2⟩
    unfold findIn at h
    split at h
    · exact hlater h
    split at h
    · exact hlater h
    split at h
    · exact hlater h
    · rename_i hallowed
      simp only [Prod.mk.injEq, Option.some.injEq] at h
      exact h.2 ▸ ⟨List.mem_cons_self, hallowed⟩

theorem findCommand_mem {view : View} {name : Word} {m : Module σ} {cmd : Command σ} :
    ∀ {ms : List (Module σ)} {found : Bool}, findCommand view name found ms = .command m cmd →
      m ∈ ms ∧ (∃ cmds, m.commands = some cmds ∧ cmd ∈ cmds) ∧ cmd.type &&& view.cmdType ≠ 0 := by
  intro ms
  induction ms with
  | nil =>
    intro found h
    cases found <;> simp [findCommand] at h
  | cons m₀ ms ih =>
    intro found h
    unfold findCommand at h
    split at h
    · obtain ⟨hm, hc⟩ := ih h
      exact ⟨List.mem_cons_of_mem _ hm, hc⟩
    · rename_i cmds hcmds
      split at h
      · rename_i b c hin
        obtain ⟨rfl, rfl⟩ := Lookup.command.inj h
        obtain ⟨hmem, hallowed⟩ := findIn_mem hin
        exact ⟨List.mem_cons_self, ⟨cmds, hcmds, hmem⟩, hallowed⟩
      · obtain ⟨hm, hc⟩ := ih h
        exact ⟨List.mem_cons_of_mem _ hm, hc⟩

theorem confHandler_upholds (hT : T.Upholds S K) (hparse : ParserUpholds K parse) (last : Rc)
    {cf : Cf σ} (h : K cf.view cf.world) :
    K (confHandler S T parse last cf).2.view (confHandler S T parse last cf).2.world := by
  unfold confHandler
  split
  · exact h
  · split
    · exact h
    · exact h
    · rename_i m cmd hfind
      obtain ⟨hm, ⟨cmds, hcmds, hcmd⟩, hallowed⟩ := findCommand_mem hfind
      split
      · exact h
      split
      · exact h
      split
      · exact h
      have hrun := Act.run_upholds hparse cf
        (hT.set m hm cmds hcmds cmd hcmd cf.view cf.args cf.world h hallowed)
      split <;> rename_i hr <;> rw [hr] at hrun <;> exact hrun

/-- What the dispatch of a token, or a round of the parser, ends with upholds `K`. -/
def RoundUpholds (K : View → σ → Prop) (r : Step (Cf σ) (Except ParseError Unit × Cf σ)) : Prop :=
  (∀ cf, r = .next cf → K cf.view cf.world) ∧ ∀ res, r = .done res → K res.2.view res.2.world

theorem RoundUpholds.next {cf : Cf σ} (h : K cf.view cf.world) : RoundUpholds K (.next cf) := by
  constructor
  · rintro _ ⟨⟩
    exact h
  · rintro _ ⟨⟩

theorem RoundUpholds.done {r : Except ParseError Unit × Cf σ} (h : K r.2.view r.2.world) :
    RoundUpholds K (.done r) := by
  constructor
  · rintro _ ⟨⟩
  · rintro _ ⟨⟩
    exact h

/-- The dispatch of a token upholds what the handlers do, given a parser that does. -/
theorem dispatch_upholds (hT : T.Upholds S K) (hparse : ParserUpholds K parse) (rc : Rc)
    {cf : Cf σ} (h : K cf.view cf.world) : RoundUpholds K (dispatch S T parse rc cf) := by
  unfold dispatch
  split
  · split
    · exact .done h
    · have hrun := Act.run_upholds hparse cf
        (hT.custom cf.view.handler cf.view cf.args cf.world h)
      split <;> rename_i hr <;> rw [hr] at hrun
      · exact .next hrun
      · exact .done hrun
      · exact .done hrun
  · have hrun := confHandler_upholds hT hparse rc h
    split <;> rename_i hr <;> rw [hr] at hrun
    · exact .done hrun
    · exact .next hrun

theorem parseStep_upholds (hS : ∀ view, S.Keeps (K view)) (hT : T.Upholds S K)
    (hparse : ParserUpholds K parse) (type : ParseType) {cf : Cf σ} (h : K cf.view cf.world) :
    RoundUpholds K (parseStep S T parse type cf) := by
  unfold parseStep
  split
  · exact .done h
  · rename_i conf hconf
    have hread := readToken_keeps (hS cf.view) conf h
    simp only
    split
    · exact .done hread
    · split <;> exact .done hread
    · split <;> exact .done hread
    · split
      · exact .done hread
      · exact dispatch_upholds hT hparse _ hread
    · exact dispatch_upholds hT hparse _ hread

theorem parseLoop_upholds (hS : ∀ view, S.Keeps (K view)) (hT : T.Upholds S K)
    (hparse : ParserUpholds K parse) (type : ParseType) {cf : Cf σ} (h : K cf.view cf.world) :
    K (parseLoop S T parse type cf).2.view (parseLoop S T parse type cf).2.world := by
  unfold parseLoop
  split
  · rename_i r hrun
    exact Loop.run_invariant (I := fun cf : Cf σ => K cf.view cf.world)
      (P := fun r => K r.2.view r.2.world)
      (fun a a' ha hs => (parseStep_upholds hS hT hparse type ha).1 a' hs)
      (fun a b ha hs => (parseStep_upholds hS hT hparse type ha).2 b hs) h hrun
  · exact h

/-! ## 3. Buffers and descriptors

The two stacks are an index of the assertion and not a part of the world, so the assertion can say
what it likes about them: that the buffers are live regions, that the descriptors are open, or
nothing at all. -/

/-- The system's calls push and pop: `I bufs fds w` says that the world `w` is in order with the
buffers `bufs` and the descriptors `fds` held on top of what was there before.  A call that fails
pushes nothing. -/
structure Sys.Disciplined (S : Sys σ) (I : List Nat → List Int → σ → Prop) : Prop where
  keeps : ∀ bufs fds, S.Keeps (I bufs fds)
  openFailed : ∀ bufs fds name w, I bufs fds w → (S.openFile name w).1 = invalidFile →
    I bufs fds (S.openFile name w).2
  openFile : ∀ bufs fds name w, I bufs fds w → (S.openFile name w).1 ≠ invalidFile →
    I bufs ((S.openFile name w).1 :: fds) (S.openFile name w).2
  fdInfo : ∀ bufs fds fd w, I bufs fds w → I bufs fds (S.fdInfo fd w).2
  allocFailed : ∀ bufs fds w w', I bufs fds w → S.alloc confBuffer w = (none, w') → I bufs fds w'
  alloc : ∀ bufs fds w w' p, I bufs fds w → S.alloc confBuffer w = (some p, w') →
    I (p :: bufs) fds w'
  free : ∀ bufs fds p w, I (p :: bufs) fds w → I bufs fds (S.free p w)
  closeFile : ∀ bufs fds fd w, I bufs (fd :: fds) w → I bufs fds (S.closeFile fd w).2

variable {I : List Nat → List Int → View → σ → Prop}

/-- The end of a file pops the buffer, if there is one, and the descriptor. -/
theorem closeConf_upholds (hS : ∀ view, S.Disciplined fun bufs fds => I bufs fds view)
    {bufs : List Nat} {fds : List Int} {fd : Int} {buf : Option Nat} (prev : Option ConfFile)
    {r : Except ParseError Unit × Cf σ}
    (h : I (buf.toList ++ bufs) (fd :: fds) r.2.view r.2.world) :
    I bufs fds (closeConf S fd buf prev r).2.view (closeConf S fd buf prev r).2.world := by
  unfold closeConf
  cases buf with
  | none =>
    have hpop := (hS r.2.view).closeFile bufs fds fd _ h
    simp only
    split <;> rename_i hc <;> rw [hc] at hpop <;> exact hpop
  | some p =>
    have hpop := (hS r.2.view).closeFile bufs fds fd _ ((hS _).free bufs _ p _ h)
    simp only
    split <;> rename_i hc <;> rw [hc] at hpop <;> exact hpop

/-- A parse ends with the buffers and descriptors it started with, and upholds what the handlers
do, whatever happens in it.  The induction is on the depth. -/
theorem confParse_upholds (hS : ∀ view, S.Disciplined fun bufs fds => I bufs fds view)
    (hT : ∀ bufs fds, T.Upholds S (I bufs fds)) :
    ∀ n bufs fds, ParserUpholds (I bufs fds) (confParse S T n) := by
  intro n
  induction n with
  | zero =>
    intro bufs fds filename cf h
    exact h
  | succ n ih =>
    intro bufs fds filename cf h
    cases filename with
    | none =>
      unfold confParse
      split
      · exact h
      · exact parseLoop_upholds (fun view => (hS view).keeps _ _) (hT _ _) (ih bufs fds) _ h
    | some filename =>
      simp only [confParse]
      split
      · rename_i hfd
        exact (hS _).openFailed bufs fds filename cf.world h hfd
      · rename_i hfd
        have hopen := (hS _).openFile bufs fds filename cf.world h hfd
        have hinfo := (hS _).fdInfo _ _ (S.openFile filename cf.world).1 _ hopen
        split
        · rename_i w hw
          exact closeConf_upholds hS _ ((hS _).allocFailed _ _ _ _ hinfo hw)
        · rename_i buf w hw
          refine closeConf_upholds hS _ ?_
          exact parseLoop_upholds (fun view => (hS view).keeps _ _) (hT _ _) (ih _ _) _
            ((hS _).alloc _ _ _ _ _ hinfo hw)

/-- So does the parse of a parameter. -/
theorem confParam_upholds (hS : ∀ view, S.Disciplined fun bufs fds => I bufs fds view)
    (hT : ∀ bufs fds, T.Upholds S (I bufs fds)) (n : Nat) (bufs : List Nat) (fds : List Int)
    (param : List UInt8) {cf : Cf σ} (h : I bufs fds cf.view cf.world) :
    I bufs fds (confParam S T n param cf).2.view (confParam S T n param cf).2.world := by
  unfold confParam
  split
  · exact h
  · exact confParse_upholds hS hT n bufs fds none _ h

variable {J : List Nat → List Int → σ → Prop}

/-- An assertion about the world alone: a parse ends with the stacks it began with, on every
exit. -/
theorem confParse_keeps (hS : S.Disciplined J) (hT : ∀ bufs fds, T.Keeps (J bufs fds)) (n : Nat)
    (bufs : List Nat) (fds : List Int) : ParserKeeps (J bufs fds) (confParse S T n) :=
  confParse_upholds (I := fun bufs fds _ => J bufs fds) (fun _ => hS)
    (fun bufs fds => (hT bufs fds).upholds) n bufs fds

theorem confParam_keeps (hS : S.Disciplined J) (hT : ∀ bufs fds, T.Keeps (J bufs fds)) (n : Nat)
    {bufs : List Nat} {fds : List Int} (param : List UInt8) {cf : Cf σ} (h : J bufs fds cf.world) :
    J bufs fds (confParam S T n param cf).2.world :=
  confParam_upholds (I := fun bufs fds _ => J bufs fds) (fun _ => hS)
    (fun bufs fds => (hT bufs fds).upholds) n bufs fds param h

end

end Capwap
