/-
# Parsing ends

`confParse` bounds the depth of nested calls and the rounds of its loops, which `cw_conf_parse`
does not.  `ParseEnds` is the parse without bounds: a derivation of it is a finite run of the code,
through the rounds of its loops and the calls of its handlers, in which every call of the tokenizer
is safe (`TokenSafe`).

When handlers return, and call the parser, if they do, for the rest of the text they are in, there
is such a run on every text and for every outcome of every read (`confParse_ends`).  What grows
smaller from call to call is the number of bytes that are not consumed yet: the token in front of a
handler has taken one.
-/
import Capwap.Conf.Bounds
import Capwap.Conf.Grammar
import Capwap.Conf.Heads
import Capwap.Conf.Resources

namespace Capwap

/-! ## 1. Runs without bounds

`confParse` returns something at any bound, so that it returns says nothing.  These relations have
no bounds: the number of rounds and the depth of the calls are those of the derivation, and a parse
that goes on for ever has none. -/

section
variable {σ : Type}

/-- The parse type of a call without a name. -/
def ConfFile.parseType (conf : ConfFile) : ParseType :=
  if conf.file.fd ≠ invalidFile then .block else .param

mutual

/-- A handler runs to its end. -/
inductive ActEnds (S : Sys σ) (T : Table σ) : Act σ → Cf σ → Rv × Cf σ → Prop
  | ret (rv : Rv) (view : View) (w : σ) (cf : Cf σ) :
      ActEnds S T (.ret rv view w) cf (rv, { cf with view := view, world := w })
  | parse {filename : Option (List UInt8)} {view : View} {w : σ}
      {k : Rv → View → List Word → σ → Act σ} {cf : Cf σ} {r : Except ParseError Unit × Cf σ}
      {res : Rv × Cf σ} (hparse : ParseEnds S T filename { cf with view := view, world := w } r)
      (hrest : ActEnds S T (k (Rv.of r.1) r.2.view r.2.args r.2.world) r.2 res) :
      ActEnds S T (.parse filename view w k) cf res

/-- The loop runs to its end, and every token on the way is safe. -/
inductive LoopEnds (S : Sys σ) (T : Table σ) :
    ParseType → Cf σ → Except ParseError Unit × Cf σ → Prop
  | done {type : ParseType} {conf : ConfFile} {cf : Cf σ} {r : Except ParseError Unit × Cf σ}
      (hconf : cf.conf = some conf) (hsafe : TokenSafe S conf cf.world)
      (hhead : roundHead S T type conf cf = .done r) : LoopEnds S T type cf r
  | last {type : ParseType} {conf : ConfFile} {cf cf₁ : Cf σ} {a : Act σ}
      {back : Rv → Cf σ → Step (Cf σ) (Except ParseError Unit × Cf σ)} {rv : Rv × Cf σ}
      {r : Except ParseError Unit × Cf σ}
      (hconf : cf.conf = some conf) (hsafe : TokenSafe S conf cf.world)
      (hhead : roundHead S T type conf cf = .call a cf₁ back) (ha : ActEnds S T a cf₁ rv)
      (hback : back rv.1 rv.2 = .done r) : LoopEnds S T type cf r
  | again {type : ParseType} {conf : ConfFile} {cf cf₁ cf₂ : Cf σ} {a : Act σ}
      {back : Rv → Cf σ → Step (Cf σ) (Except ParseError Unit × Cf σ)} {rv : Rv × Cf σ}
      {r : Except ParseError Unit × Cf σ}
      (hconf : cf.conf = some conf) (hsafe : TokenSafe S conf cf.world)
      (hhead : roundHead S T type conf cf = .call a cf₁ back) (ha : ActEnds S T a cf₁ rv)
      (hback : back rv.1 rv.2 = .next cf₂) (hrest : LoopEnds S T type cf₂ r) :
      LoopEnds S T type cf r

/-- A call of `cw_conf_parse` runs to its end. -/
inductive ParseEnds (S : Sys σ) (T : Table σ) :
    Option (List UInt8) → Cf σ → Except ParseError Unit × Cf σ → Prop
  | noFile {cf : Cf σ} (hconf : cf.conf = none) : ParseEnds S T none cf (.error .noFile, cf)
  | here {conf : ConfFile} {cf : Cf σ} {r : Except ParseError Unit × Cf σ}
      (hconf : cf.conf = some conf) (hloop : LoopEnds S T conf.parseType cf r) :
      ParseEnds S T none cf r
  | openFailed {filename : List UInt8} {cf : Cf σ}
      (hopen : (S.openFile filename cf.world).1 = invalidFile) :
      ParseEnds S T (some filename) cf
        (.error .openFailed, { cf with world := (S.openFile filename cf.world).2 })
  | noBuffer {filename : List UInt8} {cf : Cf σ} {w : σ}
      (hopen : (S.openFile filename cf.world).1 ≠ invalidFile)
      (halloc : S.alloc confBuffer (openedCf S filename cf).world = (none, w)) :
      ParseEnds S T (some filename) cf
        (closeConf S (S.openFile filename cf.world).1 none cf.conf
          (.error .noBuffer, { openedCf S filename cf with world := w }))
  | file {filename : List UInt8} {cf : Cf σ} {buf : Nat} {w : σ}
      {r : Except ParseError Unit × Cf σ}
      (hopen : (S.openFile filename cf.world).1 ≠ invalidFile)
      (halloc : S.alloc confBuffer (openedCf S filename cf).world = (some buf, w))
      (hloop : LoopEnds S T .file { openedCf S filename cf with world := w } r) :
      ParseEnds S T (some filename) cf
        (closeConf S (S.openFile filename cf.world).1 (some buf) cf.conf r)

end

/-! ## 2. Handlers that stay in their text

Without a condition on handlers a parse need not end: one could have the same file parsed again.
The condition is that a handler opens no file.  It may call the parser for the text it is in, any
number of times, and each call finds fewer bytes or none. -/

/-- A handler that calls the parser, if it does, without a name. -/
def Act.Stays : Act σ → Prop
  | .ret _ _ _ => True
  | .parse filename _ _ k => filename = none ∧ ∀ rv view args w, (k rv view args w).Stays

/-- No handler of a table opens a file. -/
structure Table.Stays (T : Table σ) : Prop where
  set : ∀ m ∈ T.modules, ∀ cmds, m.commands = some cmds → ∀ cmd ∈ cmds, ∀ view args p w,
    (cmd.set view args p w).Stays
  custom : ∀ handler view args w, (T.custom handler view args w).Stays

/-- The current file is in order, and has no more than `u` bytes left. -/
def Cf.Left (u : Nat) (cf : Cf σ) : Prop :=
  ∃ conf, cf.conf = some conf ∧ conf.Ok ∧ conf.unread ≤ u

/-- A parser that ends on the current file when it has no more than `u` bytes left, and leaves it
in order. -/
def ParserEnds (S : Sys σ) (T : Table σ) (u : Nat) (parse : Parser σ) : Prop :=
  ∀ (v : Nat) (cf : Cf σ), v ≤ u → cf.Left v →
    ParseEnds S T none cf (parse none cf) ∧ (parse none cf).2.Left v

variable {S : Sys σ} {T : Table σ} {parse : Parser σ} {u : Nat}

theorem Act.run_ends (hparse : ParserEnds S T u parse) : ∀ {a : Act σ} (cf : Cf σ) {v : Nat},
    a.Stays → v ≤ u → cf.Left v →
      ActEnds S T a cf (a.run parse cf) ∧ (a.run parse cf).2.Left v := by
  intro a
  induction a with
  | ret rv view w =>
    intro cf v _ _ h
    exact ⟨.ret rv view w cf, h⟩
  | parse filename view w k ih =>
    intro cf v hstays hv h
    obtain ⟨rfl, hk⟩ := hstays
    obtain ⟨hends, hleft⟩ := hparse v { cf with view := view, world := w } hv h
    obtain ⟨hrest, hleft'⟩ := ih _ _ _ _ (parse none { cf with view := view, world := w }).2
      (hk _ _ _ _) hv hleft
    exact ⟨.parse hends hrest, hleft'⟩

/-- The handlers a round can call stay in their text. -/
theorem Called.stays (hT : T.Stays) {rc : Rc} {cf : Cf σ} {a : Act σ}
    {back : Rv → Cf σ → Step (Cf σ) (Except ParseError Unit × Cf σ)}
    (h : Called S T rc cf a back) : a.Stays := by
  cases h with
  | custom _ _ => exact hT.custom _ _ _ _
  | set _ hfind _ =>
    obtain ⟨hm, ⟨cmds, hcmds, hcmd⟩, -⟩ := findCommand_mem hfind
    exact hT.set _ hm cmds hcmds _ hcmd _ _ _ _

/-! ## 3. The loop -/

/-- The loop ends.  The induction is on the bound of its rounds, which is above the number of bytes
left: a round that goes on has taken one, before its handler was called. -/
theorem parseLoop_ends (hS : S.ReadsWithin) (hT : T.Stays) (parse : Parser σ) (type : ParseType) :
    ∀ (n v : Nat) (cf : Cf σ), v < n → cf.Left v → (∀ k < v, ParserEnds S T k parse) →
      ∃ r, Loop.run (parseStep S T parse type) n cf = some r ∧ LoopEnds S T type cf r ∧
        r.2.Left v := by
  intro n
  induction n with
  | zero =>
    intro v cf hlt
    omega
  | succ n ih =>
    rintro v cf hlt ⟨conf, hconf, hok, hunread⟩ hparse
    have hsafe := readToken_safe hS hok cf.world
    obtain ⟨hok', hle, htakes⟩ := readToken_inOrder hS hok cf.world
    have hleft :
        (cf.took (readToken S conf cf.world)).Left (readToken S conf cf.world).conf.unread :=
      ⟨_, rfl, hok', Nat.le_refl _⟩
    have hcomes := tokenHead_comes S T type (readToken S conf cf.world).rc
      (cf.took (readToken S conf cf.world))
    have hstep := parseStep_eq S T parse type hconf
    have hdef : roundHead S T type conf cf = tokenHead S T type (readToken S conf cf.world).rc
      (cf.took (readToken S conf cf.world)) := rfl
    rw [← hdef] at hcomes
    cases hhead : roundHead S T type conf cf with
    | done r =>
      rw [hhead] at hstep hcomes
      refine ⟨r, Loop.run_done hstep n, .done hconf hsafe hhead, ?_⟩
      cases hcomes with
      | done res _ => exact ⟨_, rfl, hok', by omega⟩
    | call a cf₁ back =>
      rw [hhead] at hstep hcomes
      cases hcomes with
      | @call last _ _ hrc hlast ha =>
        -- the token has taken a byte, so the handler has fewer bytes before it
        have htook : (readToken S conf cf.world).conf.unread < conf.unread := by
          refine htakes last hrc ?_
          rcases hlast with rfl | rfl
          · simp
          · simp
        have hlt' : (readToken S conf cf.world).conf.unread < v := by omega
        obtain ⟨hends, hleft'⟩ := Act.run_ends (hparse _ hlt') _ (ha.stays hT) (Nat.le_refl _) hleft
        simp only [Head.resume] at hstep
        rcases ha.back (a.run parse (cf.took (readToken S conf cf.world))).1
          (a.run parse (cf.took (readToken S conf cf.world))).2 with ⟨-, hback⟩ | ⟨-, e, hback⟩
        · rw [hback] at hstep
          obtain ⟨r, hrun, hloop, hr⟩ := ih _ _ (by omega) hleft'
            fun k hk => hparse k (by omega)
          refine ⟨r, (Loop.run_next hstep n).trans hrun,
            .again hconf hsafe hhead hends hback hloop, ?_⟩
          obtain ⟨conf', h1, h2, h3⟩ := hr
          exact ⟨conf', h1, h2, by omega⟩
        · rw [hback] at hstep
          refine ⟨_, Loop.run_done hstep n, .last hconf hsafe hhead hends hback, ?_⟩
          obtain ⟨conf', h1, h2, h3⟩ := hleft'
          exact ⟨conf', h1, h2, by omega⟩

/-! ## 4. The parse -/

/-- The parser ends on a file in order, when it may nest calls as deep as there are bytes left.
The induction is on the depth: a handler is behind a token, so what its parse finds is smaller. -/
theorem confParse_parserEnds (hS : S.ReadsWithin) (hT : T.Stays) : ∀ (n u : Nat), u < n →
    ParserEnds S T u (confParse S T n) := by
  intro n
  induction n with
  | zero =>
    intro u hu
    omega
  | succ n ih =>
    rintro u hu v cf hv ⟨conf, hconf, hok, hunread⟩
    obtain ⟨r, hrun, hloop, hr⟩ := parseLoop_ends hS hT (confParse S T n) conf.parseType
      (conf.unread + 1) conf.unread cf (Nat.lt_succ_self _) ⟨conf, hconf, hok, Nat.le_refl _⟩
      fun k hk => ih k (by omega)
    have hparse : confParse S T (n + 1) none cf = r := by
      simp only [confParse, hconf, parseLoop, Option.map_some, Option.getD_some]
      rw [show (if conf.file.fd ≠ invalidFile then ParseType.block else .param) = conf.parseType
        from rfl, hrun]
    obtain ⟨conf', h1, h2, h3⟩ := hr
    rw [hparse]
    exact ⟨.here hconf hloop, conf', h1, h2, by omega⟩

/-- Parsing ends, and stays inside its buffer.  With handlers that return and call the parser, if
they do, for the rest of the text they are in: whatever the text is and however its reads turn out,
the calls that `confParse` computes, with any bound on the depth that is large enough, are a finite
run of the code, in which every call of the tokenizer is safe. -/
theorem confParse_ends (hS : S.ReadsWithin) (hT : T.Stays) (filename : Option (List UInt8))
    (cf : Cf σ) (hcf : filename = none → ∀ conf, cf.conf = some conf → conf.Ok) :
    ∃ N, ∀ n ≥ N, ParseEnds S T filename cf (confParse S T n filename cf) := by
  cases filename with
  | none =>
    cases hconf : cf.conf with
    | none =>
      refine ⟨1, fun n hn => ?_⟩
      obtain ⟨n, rfl⟩ : ∃ k, n = k + 1 := ⟨n - 1, by omega⟩
      simp only [confParse, hconf]
      exact .noFile hconf
    | some conf =>
      refine ⟨conf.unread + 1, fun n hn => ?_⟩
      exact (confParse_parserEnds hS hT n conf.unread hn _ cf (Nat.le_refl _)
        ⟨conf, hconf, hcf rfl conf hconf, Nat.le_refl _⟩).1
  | some filename =>
    -- the size that `fstat` leaves behind bounds what can be read
    refine ⟨(S.fdInfo (S.openFile filename cf.world).1 (S.openFile filename cf.world).2).1.2 + 1,
      fun n hn => ?_⟩
    obtain ⟨n, rfl⟩ : ∃ k, n = k + 1 := ⟨n - 1, by omega⟩
    simp only [confParse]
    by_cases hopen : (S.openFile filename cf.world).1 = invalidFile
    · rw [if_pos hopen]
      exact .openFailed hopen
    rw [if_neg hopen]
    cases halloc : S.alloc confBuffer
        (S.fdInfo (S.openFile filename cf.world).1 (S.openFile filename cf.world).2).2 with
    | mk buf w =>
      cases buf with
      | none => exact .noBuffer hopen halloc
      | some buf =>
        simp only
        have hunread : (ConfFile.opened (S.openFile filename cf.world).1 (S.fdInfo
            (S.openFile filename cf.world).1 (S.openFile filename cf.world).2).1.2).unread
              = (S.fdInfo (S.openFile filename cf.world).1
                (S.openFile filename cf.world).2).1.2 := by
          simp [ConfFile.unread, ConfFile.opened]
        obtain ⟨r, hrun, hloop, -⟩ := parseLoop_ends hS hT (confParse S T n) .file _ _
          { openedCf S filename cf with world := w } (Nat.lt_succ_self _)
          ⟨_, rfl, .opened _ _, Nat.le_refl _⟩ fun k hk => confParse_parserEnds hS hT n k (by omega)
        refine .file hopen halloc ?_
        have hparse : parseLoop S T (confParse S T n) .file
            { openedCf S filename cf with world := w } = r := by
          unfold parseLoop
          simp only [openedCf, Option.map_some, Option.getD_some] at hrun ⊢
          rw [hrun]
        exact hparse ▸ hloop

end

theorem sampleTable_stays : sampleTable.Stays where
  set m hm cmds hcmds cmd hcmd view args p w := by
    obtain rfl := List.mem_singleton.mp hm
    obtain rfl := Option.some.inj hcmds
    simp only [List.mem_cons, List.not_mem_nil, or_false] at hcmd
    rcases hcmd with rfl | rfl
    · exact trivial
    · exact ⟨rfl, fun _ _ _ _ => trivial⟩
  custom _ _ _ _ := trivial

/-- The statement for a file with a block in it, whose handler reads the block. -/
theorem confParse_ends_sample :
    let view : View := { ctx := 0, moduleType := coreModule, cmdType := mainConf, handler := 0 }
    let cf : Cf Unit := { args := [], conf := none, view := view, world := () }
    ∃ N, ∀ n ≥ N, ParseEnds (Sys.plain sampleText) sampleTable (some []) cf
      (confParse (Sys.plain sampleText) sampleTable n (some []) cf) :=
  confParse_ends (Sys.plain_readsWithin _) sampleTable_stays (some []) _ (by simp)

end Capwap
