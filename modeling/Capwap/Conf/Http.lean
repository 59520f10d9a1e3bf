/-
# A block that its handler does not read

The parser leaves a block to the handler of its directive: `cw_conf_handler` returns with the
tokenizer right behind the `{`, unless the handler has called `cw_conf_parse` in the meantime.
`cw_http_block` has the flag of a block, and makes no such call.

So whenever the dispatch of an `http` directive succeeds, the tokenizer stays where it was, the
directives of the block are read as if they stood in the main context, and the `}` ends the parse
with an error.  `HttpFile.Consumed` is what should be true, for any file with such a block, and
`httpBlock_iff` says that it is true only when there is nothing to it: when the dispatch fails for
want of memory.
-/
import Capwap.Conf.CoreText

namespace Capwap

/-! ## 1. `cw_http_module`

The record of the module has three pointers that are cleared, and the slot for its own address is
the argument `conf`.  The handler does what it does to the slot and returns; the parser is not
called. -/

/-- `CW_CONF_NOARGS`. -/
def confNoArgs : Nat := 0x1

/-- `sizeof(cw_http_conf_ctx_t)`. -/
def sizeofHttpConfCtx : Nat := 24

/-- The text `http`. -/
def httpText : List UInt8 := [104, 116, 116, 112]

section
variable {τ : Type}

/-- The record at `ctx` has been allocated and cleared, and `*conf = ctx`. -/
def Configured.storeHttp (w : Configured τ) (m : τ) (ctx conf : Nat) : Configured τ :=
  let zeroed := fun a => if ctx ≤ a ∧ a < ctx + sizeofHttpConfCtx then 0 else w.slots a
  { w with sys := m, slots := fun a => if a = conf then ctx else zeroed a }

/-- `cw_http_block`; `pcalloc` is `cw_pcalloc` on `cf->pool`.  The slot is read first, and a second
directive in the same context is a duplicate. -/
def httpBlock (pcalloc : Nat → τ → Option Nat × τ) (view : View) (_ : List Word) (conf : Nat)
    (w : Configured τ) : Act (Configured τ) :=
  if w.slots conf ≠ 0 then .ret (.message "is duplicate") view w
  else
    match pcalloc sizeofHttpConfCtx w.sys with
    | (none, m) => .ret .error view { w with sys := m }
    | (some ctx, m) => .ret .ok view (w.storeHttp m ctx conf)

/-- `cw_http_commands`. -/
def httpCommands (pcalloc : Nat → τ → Option Nat × τ) : List (Command (Configured τ)) :=
  [{ name := httpText
     type := mainConf ||| confBlock ||| confNoArgs
     conf := 0
     set := httpBlock pcalloc }]

/-- `cw_http_module`, at position `index` of the modules; `ctx_index` is never set. -/
def cwHttpModule (pcalloc : Nat → τ → Option Nat × τ) (index : Nat) : Module (Configured τ) :=
  { type := coreModule, index := index, ctxIndex := 2 ^ 64 - 1
    commands := some (httpCommands pcalloc) }

/-- The core module and the http module: what the table would be with `cw_http_module` in it. -/
def httpTable (ncpu : Int) (pcalloc : Nat → τ → Option Nat × τ) : Table (Configured τ) :=
  { modules := [cwCoreModule ncpu 0, cwHttpModule pcalloc 1]
    custom := fun _ view _ w => .ret .ok view w }

end

/-! ## 2. Files with an `http` block

The property is about files that have one such block between directives of the core module, so the
shape of the file comes first.  What `cw_conf_handler` does with the directive is one thing, and
what the loop of the file does after it another; `Consumed` has a part for each, and a part for the
empty block, with which a file should be accepted if it is without. -/

/-- A sequence of directives as a text, with the tree of its items; the text of a block goes up to
its `}`.  Blanks and comments before a word or a `}` belong to the token. -/
inductive Balanced (limit : Option Nat) : List UInt8 → List Item → Prop
  | nil : Balanced limit [] []
  | simple {d text : List UInt8} {words : List (List UInt8)} {items : List Item}
      (hlex : lex limit d = (⟨.ok .ok, words⟩, [])) (h : Balanced limit text items) :
      Balanced limit (d ++ text) (.simple words :: items)
  | block {d body e text : List UInt8} {words : List (List UInt8)} {inner items : List Item}
      (hlex : lex limit d = (⟨.ok .blockStart, words⟩, [])) (hbody : Balanced limit body inner)
      (hend : lex limit e = (⟨.ok .blockDone, []⟩, [])) (h : Balanced limit text items) :
      Balanced limit (d ++ (body ++ (e ++ text))) (.block words inner :: items)

/-- The words of a directive. -/
def Item.words : Item → List (List UInt8)
  | .simple words => words
  | .block words _ => words

/-- A file of the form `A http { B } C`: `A` and `C` are sequences of directives other than `http`,
what stands behind the last directive of `C` is `tail`, and `B` is any sequence of directives.  The
fields are the pieces of the text, with what each of them is. -/
structure HttpFile where
  before : List UInt8
  opening : List UInt8
  body : List UInt8
  closing : List UInt8
  behind : List UInt8
  tail : List UInt8
  itemsBefore : List Item
  items : List Item
  itemsBehind : List Item
  hbefore : Balanced (some confBuffer) before itemsBefore
  hopening : lex (some confBuffer) opening = (⟨.ok .blockStart, [httpText]⟩, [])
  hbody : Balanced (some confBuffer) body items
  hclosing : lex (some confBuffer) closing = (⟨.ok .blockDone, []⟩, [])
  hbehind : Balanced (some confBuffer) behind itemsBehind
  htail : lex (some confBuffer) tail = (⟨.ok .fileDone, []⟩, [])
  other : ∀ item ∈ itemsBefore ++ itemsBehind, item.words.head? ≠ some httpText

namespace HttpFile

/-- `C`. -/
def after (F : HttpFile) : List UInt8 := F.behind ++ F.tail

/-- From the `}` on. -/
def rest (F : HttpFile) : List UInt8 := F.closing ++ F.after

/-- The whole file. -/
def text (F : HttpFile) : List UInt8 := F.before ++ (F.opening ++ (F.body ++ F.rest))

/-- `A` followed by `C`. -/
def without (F : HttpFile) : List UInt8 := F.before ++ F.after

end HttpFile

section
variable {τ : Type}

/-- The parser accepts a file with this content; calls are nested at most `n + 1` deep. -/
def Accepts (S : List UInt8 → Sys τ) (T : Table (Configured τ)) (n : Nat) (name : List UInt8)
    (cf₀ : Cf (Configured τ)) (content : List UInt8) : Prop :=
  (confParse (S content).configured T (n + 1) (some name) cf₀).1 = .ok ()

/-- The loop of the file comes to `cf`. -/
def FileLoop (S : Sys τ) (T : Table (Configured τ)) (n : Nat) :
    Cf (Configured τ) → Cf (Configured τ) → Prop :=
  Loop.Reaches (parseStep S.configured T (confParse S.configured T n) .file)

namespace HttpFile

variable (F : HttpFile) (S : List UInt8 → Sys τ) (fd : Int) (T : Table (Configured τ)) (n : Nat)
variable (name : List UInt8) (cf₀ : Cf (Configured τ))

/-- The text still to come. -/
def Before (content : List UInt8) (cf : Cf (Configured τ)) : Prop :=
  ∃ conf, cf.conf = some conf ∧
    conf.Holds (S F.text).configured (Source.file fd F.text) content

/-- `cw_conf_handler` is called in `cf` for the `http` directive: the loop of the file has come to
the directive, and its token has been read. -/
def Called (cf : Cf (Configured τ)) : Prop :=
  ∃ cf₁ conf, FileLoop (S F.text) T n (cf₀.fileStart (S F.text).configured fd F.text name) cf₁ ∧
    cf₁.conf = some conf ∧ F.Before S fd (F.opening ++ (F.body ++ F.rest)) cf₁ ∧
    cf = cf₁.afterToken (S F.text) conf

/-- The handler consumes its block: when the dispatch succeeds, the tokenizer stands behind the
`}`, no directive of the block is read in the main context, and the view is as before; and an empty
block is as good as none. -/
structure Consumed (cf : Cf (Configured τ)) : Prop where
  position : ∀ cf', confHandler (S F.text).configured T (confParse (S F.text).configured T n)
    .blockStart cf = (.ok (), cf') → F.Before S fd F.after cf'
  body : ∀ cf', confHandler (S F.text).configured T (confParse (S F.text).configured T n)
    .blockStart cf = (.ok (), cf') → ∀ cf'', FileLoop (S F.text) T n cf' cf'' →
      ∀ text, text ≠ [] → text <:+ F.body → F.Before S fd (text ++ F.rest) cf'' →
        cf''.view.cmdType ≠ mainConf
  view : ∀ cf', confHandler (S F.text).configured T (confParse (S F.text).configured T n)
    .blockStart cf = (.ok (), cf') → cf'.view.ctx = cf.view.ctx ∧
      cf'.view.moduleType = cf.view.moduleType ∧ cf'.view.cmdType = cf.view.cmdType
  empty : F.body = [] → Accepts S T n name cf₀ F.without → Accepts S T n name cf₀ F.text

end HttpFile

end

/-! ## 3. A token in front of a text

The pieces of the file are texts of their own, and the parser reads them in a row.  A call on a
text that is one token, with more behind it, reads the token and leaves the rest. -/

/-- A token is the same whatever stands behind it, the one at the end of a file excepted. -/
theorem lex_append {limit : Option Nat} {d : List UInt8} {words : List (List UInt8)} {rc : Rc}
    (h : lex limit d = (⟨.ok rc, words⟩, [])) (hrc : rc ≠ .fileDone) (text : List UInt8) :
    lex limit (d ++ text) = (⟨.ok rc, words⟩, text) := by
  unfold lex at h ⊢
  rcases Loop.feed_cases (Lexer.step limit) Lexer.eof d .start with
    ⟨s, -, hf⟩ | ⟨pre, c, post, s, o, rfl, ha, hd, hf⟩
  · -- the end of the text is another code
    rw [hf] at h
    have heof := congrArg Lexeme.rc (Prod.mk.inj h).1
    unfold Lexer.eof at heof
    split at heof
    · exact absurd (Except.ok.inj heof).symm hrc
    · cases heof
  · rw [hf] at h
    obtain ⟨rfl, rfl⟩ := Prod.mk.inj h
    rw [List.append_assoc, Loop.feed_advance _ ha, List.singleton_append, Loop.feed_done hd]

/-- A token is not empty. -/
theorem token_ne_nil {limit : Option Nat} {d : List UInt8} {words : List (List UInt8)} {rc : Rc}
    (h : lex limit d = (⟨.ok rc, words⟩, [])) (hrc : rc ≠ .fileDone) : d ≠ [] := by
  rintro rfl
  exact hrc (Except.ok.inj (Lexeme.mk.inj (Prod.mk.inj h).1).1).symm

/-! ## 4. The dispatch

With two commands in the table, a directive other than `http` is handled as if there were one.
That of `http` fits when it has a `{` and no argument. -/

section
variable {τ : Type} {S : Sys τ} {ncpu : Int} {pcalloc : Nat → τ → Option Nat × τ} {p : Nat}

theorem httpTable_names : (httpTable ncpu pcalloc).NamesOk := by
  simp [Table.NamesOk, Table.commands, httpTable, cwCoreModule, coreCommands, cwHttpModule,
    httpCommands, workerProcessesText, httpText]

/-- The directive takes no argument. -/
theorem admitsArgs_noArgs {n : Nat} (hn : 0 < n) :
    admitsArgs (mainConf ||| confBlock ||| confNoArgs) n = true ↔ n = 1 := by
  by_cases hmax : n > confMaxArgs
  · have hne : n ≠ 1 := by
      unfold confMaxArgs at hmax
      omega
    simp [admitsArgs, mainConf, confBlock, confNoArgs, confAny, confFlag, conf1More, conf2More,
      hmax, hne]
  · have hle : n ≤ 8 := Nat.not_lt.mp hmax
    have hall : ∀ k, k ≤ 8 → 0 < k →
        (admitsArgs (mainConf ||| confBlock ||| confNoArgs) k = true ↔ k = 1) := by
      decide
    exact hall n hle hn

/-- What the two commands fit. -/
theorem httpTable_fits {view : View} (hm : view.moduleType = coreModule)
    (hc : view.cmdType = mainConf) {words : List (List UInt8)} {last : Rc}
    {m : Module (Configured τ)} {cmd : Command (Configured τ)} :
    Fits (httpTable ncpu pcalloc) view words last m cmd ↔
      (last ≠ .blockStart ∧ (∃ value, words = [workerProcessesText, value]) ∧
        m = cwCoreModule ncpu 0 ∧ cmd ∈ coreCommands ncpu) ∨
      (last = .blockStart ∧ words = [httpText] ∧ m = cwHttpModule pcalloc 1 ∧
        cmd ∈ httpCommands pcalloc) := by
  have hsimple : (mainConf ||| directConf ||| confTake1) &&& confBlock = 0 := by decide
  have hblock : (mainConf ||| confBlock ||| confNoArgs) &&& confBlock ≠ 0 := by decide
  have hnames : httpText ≠ workerProcessesText := by decide
  constructor
  · rintro ⟨⟨name, tail, rfl, hfirst⟩, hterm, hcount⟩
    have hmem := hfirst.mem
    obtain ⟨before, after, hall, hmatch, -⟩ := hfirst
    simp only [Table.commands, httpTable, cwCoreModule, coreCommands, cwHttpModule, httpCommands,
      List.flatMap_cons, List.flatMap_nil, Option.getD_some, List.map_cons, List.map_nil,
      List.append_nil, List.singleton_append, List.mem_cons, List.not_mem_nil, or_false,
      Prod.mk.injEq] at hmem
    rcases hmem with ⟨rfl, rfl⟩ | ⟨rfl, rfl⟩
    · refine Or.inl ⟨fun hlast => ?_, ?_, rfl, List.mem_singleton_self _⟩
      · exact absurd hsimple (hterm.mpr hlast)
      · have hlen := (admitsArgs_take1 _).mp hcount
        obtain ⟨value, rfl⟩ := List.length_eq_one_iff.mp (by simpa using hlen : tail.length = 1)
        exact ⟨value, by rw [hmatch.name]⟩
    · refine Or.inr ⟨hterm.mp hblock, ?_, rfl, List.mem_singleton_self _⟩
      have hlen := (admitsArgs_noArgs (by simp)).mp hcount
      obtain rfl := List.length_eq_zero_iff.mp (by simpa using hlen : tail.length = 0)
      rw [hmatch.name]
  · rintro (⟨hlast, ⟨value, rfl⟩, rfl, hcmd⟩ | ⟨rfl, rfl, rfl, hcmd⟩)
    · obtain rfl := List.mem_singleton.mp hcmd
      refine ⟨⟨_, _, rfl, [], _, rfl, ⟨rfl, Or.inr hm.symm, ?_⟩, by simp⟩, ?_, ?_⟩
      · rw [hc]
        show (mainConf ||| directConf ||| confTake1) &&& mainConf ≠ 0
        decide
      · exact iff_of_false (not_not.mpr hsimple) hlast
      · exact (admitsArgs_take1 2).mpr rfl
    · obtain rfl := List.mem_singleton.mp hcmd
      refine ⟨⟨_, _, rfl, [(cwCoreModule ncpu 0, _)], [], rfl, ⟨rfl, Or.inr hm.symm, ?_⟩, ?_⟩,
        ?_, ?_⟩
      · rw [hc]
        show (mainConf ||| confBlock ||| confNoArgs) &&& mainConf ≠ 0
        decide
      · -- the core module's command has another name
        intro x hx
        obtain rfl := List.mem_singleton.mp hx
        exact fun hmatch => hnames hmatch.name
      · exact iff_of_true hblock rfl
      · exact (admitsArgs_noArgs (by decide)).mpr rfl

/-- The parser is set up for the main context; the record of the core module is at `p`, and
there has been no `http` directive. -/
structure MainReady (p : Nat) (cf : Cf (Configured τ)) : Prop where
  core : CoreReady p cf
  http : cf.world.slots (cf.view.ctx + 8) = 0

/-- A directive other than `http` is dispatched as the core module alone would dispatch it. -/
theorem main_dispatch_iff {parse : Parser (Configured τ)} {cf cf' : Cf (Configured τ)}
    (h : CoreReady p cf) {words : List (List UInt8)} (hargs : cf.args = words.map Word.of)
    {rc : Rc} (hrc : rc = .ok ∨ rc = .blockStart) (hname : words.head? ≠ some httpText) :
    dispatch S.configured (httpTable ncpu pcalloc) parse rc cf = .next cf' ↔
      rc = .ok ∧ ∃ value v, words = [workerProcessesText, value] ∧
        cf.workers p = confUnset ∧ readValue ncpu value = some v ∧
        cf' = { cf with world := cf.world.setWorkers p v } := by
  rw [dispatch_next_iff h.handler, confHandler_ok_iff httpTable_names hrc hargs]
  have hpointer : confPointer S.configured cf.view (cwCoreModule ncpu 0)
      { name := workerProcessesText, type := mainConf ||| directConf ||| confTake1, conf := 0,
        set := setWorkerProcesses ncpu } cf.world = p := by
    have hdirect : (mainConf ||| directConf ||| confTake1) &&& directConf ≠ 0 := by decide
    rw [confPointer, if_pos hdirect]
    exact h.slot
  constructor
  · rintro ⟨m, cmd, hfits, hrun⟩
    rcases (httpTable_fits h.moduleType h.cmdType).mp hfits with
      ⟨hlast, ⟨value, rfl⟩, rfl, hcmd⟩ | ⟨-, rfl, -⟩
    · obtain rfl := List.mem_singleton.mp hcmd
      rw [hpointer] at hrun
      obtain ⟨hunset, v, hvalue, hcf⟩ := (setWorkerProcesses_run hargs).mp hrun
      exact ⟨hrc.resolve_right hlast, value, v, rfl, hunset, hvalue, hcf⟩
    · exact absurd rfl hname
  · rintro ⟨rfl, value, v, rfl, hunset, hvalue, hcf⟩
    refine ⟨_, _, (httpTable_fits h.moduleType h.cmdType).mpr
      (Or.inl ⟨by simp, ⟨value, rfl⟩, rfl, List.mem_singleton_self _⟩), ?_⟩
    rw [hpointer]
    exact (setWorkerProcesses_run hargs).mpr ⟨hunset, v, hvalue, hcf⟩

/-- The dispatch of the `http` directive succeeds when there is memory for the record, and reads
nothing. -/
theorem http_dispatch_iff {parse : Parser (Configured τ)} {cf cf' : Cf (Configured τ)}
    (h : MainReady p cf) (hargs : cf.args = [httpText].map Word.of) :
    confHandler S.configured (httpTable ncpu pcalloc) parse .blockStart cf = (.ok (), cf') ↔
      ∃ ctx m, pcalloc sizeofHttpConfCtx cf.world.sys = (some ctx, m) ∧
        cf' = { cf with world := cf.world.storeHttp m ctx (cf.view.ctx + 8) } := by
  have hrun : (httpBlock pcalloc cf.view cf.args (cf.view.ctx + 8) cf.world).run parse cf
      = (.ok, cf') ↔ ∃ ctx m, pcalloc sizeofHttpConfCtx cf.world.sys = (some ctx, m) ∧
        cf' = { cf with world := cf.world.storeHttp m ctx (cf.view.ctx + 8) } := by
    unfold httpBlock
    rw [if_neg (not_not.mpr h.http)]
    cases pcalloc sizeofHttpConfCtx cf.world.sys with
    | mk ans m =>
      cases ans with
      | none => simp [Act.run]
      | some ctx =>
        simp only [Act.run, Prod.mk.injEq, true_and, Option.some.injEq]
        constructor
        · rintro rfl
          exact ⟨ctx, m, ⟨rfl, rfl⟩, rfl⟩
        · rintro ⟨_, _, ⟨rfl, rfl⟩, rfl⟩
          rfl
  have hpointer : confPointer S.configured cf.view (cwHttpModule pcalloc 1)
      { name := httpText, type := mainConf ||| confBlock ||| confNoArgs, conf := 0,
        set := httpBlock pcalloc } cf.world = cf.view.ctx + 8 := by
    have hdirect : (mainConf ||| confBlock ||| confNoArgs) &&& directConf = 0 := by decide
    have hmain : (mainConf ||| confBlock ||| confNoArgs) &&& mainConf ≠ 0 := by decide
    rw [confPointer, if_neg (not_not.mpr hdirect), if_pos hmain]
    rfl
  rw [confHandler_ok_iff httpTable_names (Or.inr rfl) hargs]
  constructor
  · rintro ⟨m, cmd, hfits, hset⟩
    rcases (httpTable_fits h.core.moduleType h.core.cmdType).mp hfits with
      ⟨hlast, -⟩ | ⟨-, -, rfl, hcmd⟩
    · exact absurd rfl hlast
    · obtain rfl := List.mem_singleton.mp hcmd
      rw [hpointer] at hset
      exact hrun.mp hset
  · intro hmade
    refine ⟨_, _, (httpTable_fits h.core.moduleType h.core.cmdType).mpr
      (Or.inr ⟨rfl, rfl, rfl, List.mem_singleton_self _⟩), ?_⟩
    rw [hpointer]
    exact hrun.mpr hmade

/-! ## 5. The loop of the file

The loop goes through the directives of `A`, one round each.  When it succeeds in the end, each of
them was admitted, and there is a state behind the last from which it goes on; in the other
direction, directives that are admitted are gone through.  A `}` that comes up in the main context
is the end. -/

/-- The loop of the file stands before `rest` in the main context, with `u` workers configured. -/
structure InMain (S : Sys τ) (fd : Int) (content : List UInt8) (p : Nat) (u : Int)
    (rest : List UInt8) (cf : Cf (Configured τ)) : Prop where
  ready : MainReady p cf
  workers : cf.workers p = u
  conf : ∃ conf, cf.conf = some conf ∧ conf.Holds S.configured (Source.file fd content) rest

/-- The directives of the main context that are accepted one after the other, and the number of
workers before and after them. -/
inductive Admitted (ncpu : Int) : Int → List Item → Int → Prop
  | nil {u : Int} : Admitted ncpu u [] u
  | cons {value : List UInt8} {v u : Int} {items : List Item}
      (hvalue : readValue ncpu value = some v) (h : Admitted ncpu v items u) :
      Admitted ncpu confUnset (.simple [workerProcessesText, value] :: items) u

section
variable {fd : Int} {content d rest : List UInt8} {u : Int} {words : List (List UInt8)} {rc : Rc}
variable {n : Nat} {cf : Cf (Configured τ)}

/-- One call of the tokenizer. -/
theorem readToken_append (hS : S.Allocates) {conf : ConfFile} (w : Configured τ)
    (h : conf.Holds S.configured (Source.file fd content) (d ++ rest))
    (hlex : lex (some confBuffer) d = (⟨.ok rc, words⟩, [])) (hrc : rc ≠ .fileDone) :
    (readToken S.configured conf w).rc = .ok rc ∧
      (readToken S.configured conf w).args = words.map Word.of ∧
      (readToken S.configured conf w).conf.Holds S.configured (Source.file fd content) rest := by
  have hsame := readToken_refines (Sys.configured_allocates hS) h w
  have htoken : lex (Source.file fd content).limit (d ++ rest) = (⟨.ok rc, words⟩, rest) :=
    lex_append hlex hrc rest
  rw [htoken] at hsame
  exact ⟨(hsame.rc.ok_iff rc).mpr rfl, hsame.args, (hsame.conf (by simp)).1⟩

/-- One token. -/
theorem InMain.token (hS : S.Allocates) (h : InMain S fd content p u (d ++ rest) cf)
    (hlex : lex (some confBuffer) d = (⟨.ok rc, words⟩, [])) (hrc : rc ≠ .fileDone) :
    ∃ conf, cf.conf = some conf ∧ (readToken S.configured conf cf.world).rc = .ok rc ∧
      (cf.afterToken S conf).args = words.map Word.of ∧
      InMain S fd content p u rest (cf.afterToken S conf) := by
  obtain ⟨hready, hworkers, conf, hconf, hh⟩ := h
  obtain ⟨hok, hargs, hheld⟩ := readToken_append hS cf.world hh hlex hrc
  obtain ⟨hslots, hcore⟩ := readToken_keeps
    (S.configured_keeps cf.world.slots cf.world.core) conf (w := cf.world) ⟨rfl, rfl⟩
  refine ⟨conf, hconf, hok, hargs, ⟨⟨⟨hready.core.moduleType, hready.core.cmdType,
    hready.core.handler, (congrFun hslots _).trans hready.core.slot⟩,
    (congrFun hslots _).trans hready.http⟩, ?_, _, rfl, hheld⟩⟩
  rw [← hworkers]
  exact congrArg CoreConf.workerProcesses (congrFun hcore p)

/-- A round of the loop for a directive. -/
theorem parseStep_directive {T : Table (Configured τ)} {parse : Parser (Configured τ)}
    {conf : ConfFile} (hconf : cf.conf = some conf)
    (hrc : (readToken S.configured conf cf.world).rc = .ok rc)
    (hterm : rc = .ok ∨ rc = .blockStart) :
    parseStep S.configured T parse .file cf
      = dispatch S.configured T parse rc (cf.afterToken S conf) := by
  rcases hterm with rfl | rfl
  · simp only [parseStep, hconf, hrc, Cf.afterToken]
  · simp [parseStep, hconf, hrc, Cf.afterToken]

/-- A `}` ends the loop of the file with an error. -/
theorem closing_rejected (hS : S.Allocates) {T : Table (Configured τ)}
    {parse : Parser (Configured τ)} {conf : ConfFile} (hconf : cf.conf = some conf)
    (h : conf.Holds S.configured (Source.file fd content) (d ++ rest))
    (hlex : lex (some confBuffer) d = (⟨.ok .blockDone, words⟩, [])) :
    ∃ cf', parseStep S.configured T parse .file cf = .done (.error .unexpectedClose, cf') := by
  obtain ⟨hrc, -, -⟩ := readToken_append hS cf.world h hlex (by simp)
  exact ⟨cf.afterToken S conf, by simp [parseStep, hconf, hrc, Cf.afterToken]⟩

/-- The loop goes on behind a directive other than `http` that is accepted. -/
theorem InMain.next (hS : S.Allocates) {parse : Parser (Configured τ)} {cf' : Cf (Configured τ)}
    (h : InMain S fd content p u (d ++ rest) cf)
    (hlex : lex (some confBuffer) d = (⟨.ok rc, words⟩, []))
    (hterm : rc = .ok ∨ rc = .blockStart) (hname : words.head? ≠ some httpText)
    (hstep : parseStep S.configured (httpTable ncpu pcalloc) parse .file cf = .next cf') :
    rc = .ok ∧ u = confUnset ∧ ∃ value v, words = [workerProcessesText, value] ∧
      readValue ncpu value = some v ∧ InMain S fd content p v rest cf' := by
  have hne : rc ≠ .fileDone := by rcases hterm with rfl | rfl <;> simp
  obtain ⟨conf, hconf, hrc, hargs, hready, hworkers, hheld⟩ := h.token hS hlex hne
  rw [parseStep_directive hconf hrc hterm] at hstep
  obtain ⟨hok, value, v, hwords, hunset, hvalue, rfl⟩ :=
    (main_dispatch_iff hready.core hargs hterm hname).mp hstep
  refine ⟨hok, hworkers.symm.trans hunset, value, v, hwords, hvalue, ⟨⟨?_, hready.http⟩, ?_, hheld⟩⟩
  · exact ⟨hready.core.moduleType, hready.core.cmdType, hready.core.handler, hready.core.slot⟩
  · simp [Cf.workers]

/-- ...and there is such a round for each. -/
theorem InMain.exists_next (hS : S.Allocates) (parse : Parser (Configured τ))
    {value : List UInt8} {v : Int} (h : InMain S fd content p confUnset (d ++ rest) cf)
    (hlex : lex (some confBuffer) d = (⟨.ok .ok, [workerProcessesText, value]⟩, []))
    (hvalue : readValue ncpu value = some v) :
    ∃ cf', parseStep S.configured (httpTable ncpu pcalloc) parse .file cf = .next cf' ∧
      InMain S fd content p v rest cf' := by
  have hname : [workerProcessesText, value].head? ≠ some httpText := by
    rw [List.head?_cons]
    exact fun he => absurd (Option.some.inj he) (by decide)
  obtain ⟨conf, hconf, hrc, hargs, hready, hworkers, -⟩ := h.token hS hlex (by simp)
  have hstep : parseStep S.configured (httpTable ncpu pcalloc) parse .file cf
      = .next { cf.afterToken S conf with
          world := (cf.afterToken S conf).world.setWorkers p v } :=
    (parseStep_directive hconf hrc (Or.inl rfl)).trans
      ((main_dispatch_iff hready.core hargs (Or.inl rfl) hname).mpr
        ⟨rfl, value, v, rfl, hworkers, hvalue, rfl⟩)
  obtain ⟨-, -, value', v', hwords, hvalue', hmain⟩ := h.next hS hlex (Or.inl rfl) hname hstep
  obtain rfl : value = value' := by simpa using hwords
  obtain rfl := Option.some.inj (hvalue.symm.trans hvalue')
  exact ⟨_, hstep, hmain⟩

/-- A loop that succeeds in the end goes on behind every directive. -/
theorem InMain.run_next (hS : S.Allocates) {T : Table (Configured τ)}
    {parse : Parser (Configured τ)} {m : Nat} {cf' : Cf (Configured τ)}
    (h : InMain S fd content p u (d ++ rest) cf)
    (hlex : lex (some confBuffer) d = (⟨.ok rc, words⟩, []))
    (hterm : rc = .ok ∨ rc = .blockStart)
    (hrun : Loop.run (parseStep S.configured T parse .file) m cf = some (.ok (), cf')) :
    ∃ m' cf₁, parseStep S.configured T parse .file cf = .next cf₁ ∧
      Loop.run (parseStep S.configured T parse .file) m' cf₁ = some (.ok (), cf') := by
  have hne : rc ≠ .fileDone := by rcases hterm with rfl | rfl <;> simp
  obtain ⟨conf, hconf, hrc, -, hmain⟩ := h.token hS hlex hne
  have hstep : parseStep S.configured T parse .file cf
      = dispatch S.configured T parse rc (cf.afterToken S conf) :=
    parseStep_directive hconf hrc hterm
  cases m with
  | zero => simp [Loop.run] at hrun
  | succ m =>
    cases hd : dispatch S.configured T parse rc (cf.afterToken S conf) with
    | next cf₁ =>
      rw [Loop.run_next (hstep.trans hd)] at hrun
      exact ⟨m, cf₁, hstep.trans hd, hrun⟩
    | done r =>
      rw [Loop.run_done (hstep.trans hd), Option.some.injEq] at hrun
      subst hrun
      exact absurd hd (dispatch_ne_done hmain.ready.core.handler cf')

/-- A loop that succeeds in the end has gone through the directives in front, and they are
admitted.  The induction is on these; none of them is a block, since a block ends the loop. -/
theorem InMain.run_ok (hS : S.Allocates) {parse : Parser (Configured τ)} {text : List UInt8}
    {items : List Item} (htext : Balanced (some confBuffer) text items) :
    (∀ item ∈ items, item.words.head? ≠ some httpText) →
    ∀ {u : Int} {m : Nat} {cf cf' : Cf (Configured τ)},
      InMain S fd content p u (text ++ rest) cf →
      Loop.run (parseStep S.configured (httpTable ncpu pcalloc) parse .file) m cf
        = some (.ok (), cf') →
      ∃ u' m' cf₁, Admitted ncpu u items u' ∧ InMain S fd content p u' rest cf₁ ∧
        Loop.run (parseStep S.configured (httpTable ncpu pcalloc) parse .file) m' cf₁
          = some (.ok (), cf') := by
  induction htext with
  | nil =>
    intro _ u m cf cf' h hrun
    exact ⟨u, m, cf, .nil, h, hrun⟩
  | @simple d text words items hlex _ ih =>
    intro hother u m cf cf' h hrun
    rw [List.append_assoc] at h
    obtain ⟨m₁, cf₁, hstep, hrun₁⟩ := h.run_next hS hlex (Or.inl rfl) hrun
    obtain ⟨-, rfl, value, v, rfl, hvalue, hmain⟩ :=
      h.next hS hlex (Or.inl rfl) (hother _ List.mem_cons_self) hstep
    obtain ⟨u', m', cf₂, hadm, hmain₂, hrun₂⟩ :=
      ih (fun item hi => hother item (List.mem_cons_of_mem _ hi)) hmain hrun₁
    exact ⟨u', m', cf₂, .cons hvalue hadm, hmain₂, hrun₂⟩
  | @block d body e text words inner items hlex _ _ _ _ _ =>
    intro hother u m cf cf' h hrun
    rw [List.append_assoc] at h
    obtain ⟨m₁, cf₁, hstep, -⟩ := h.run_next hS hlex (Or.inr rfl) hrun
    obtain ⟨hok, -⟩ := h.next hS hlex (Or.inr rfl) (hother _ List.mem_cons_self) hstep
    cases hok

/-- The loop goes through directives that are admitted. -/
theorem InMain.reach (hS : S.Allocates) (parse : Parser (Configured τ)) {u' : Int}
    {items : List Item} (hadm : Admitted ncpu u items u') :
    ∀ {text : List UInt8} {cf : Cf (Configured τ)}, Balanced (some confBuffer) text items →
      InMain S fd content p u (text ++ rest) cf →
      ∃ cf₁, Loop.Reaches (parseStep S.configured (httpTable ncpu pcalloc) parse .file) cf cf₁ ∧
        InMain S fd content p u' rest cf₁ := by
  induction hadm with
  | nil =>
    intro text cf htext h
    cases htext
    exact ⟨cf, .refl, h⟩
  | cons hvalue _ ih =>
    intro text cf htext h
    cases htext with
    | simple hlex htext =>
      rw [List.append_assoc] at h
      obtain ⟨cf₁, hstep, hmain⟩ := h.exists_next hS parse hlex hvalue
      obtain ⟨cf₂, hreach, hmain₂⟩ := ih htext hmain
      exact ⟨cf₂, .head hstep hreach, hmain₂⟩

end

/-! ## 6. When the block is consumed

If there is memory, the dispatch succeeds, and the tokenizer stands right behind the `{`: before
the first directive of the block, or before the `}` of an empty one.  Neither is what `Consumed`
asks for.  If there is none, the dispatch fails and so does the file, and `Consumed` asks for
nothing but that an empty block does no harm. -/

theorem Sys.configured_opens {fd : Int} {content : List UInt8} (h : S.Opens fd content) :
    S.configured.Opens fd content :=
  ⟨h.valid, fun name w => h.openFile name w.sys, fun w => h.fdInfo w.sys,
    fun n w => h.alloc n w.sys, fun w => h.closeFile w.sys, fun n off w => h.serves n off w.sys⟩

/-- The loop of a file starts in the main context. -/
theorem InMain.start {fd : Int} {content name : List UInt8} (hopen : S.Opens fd content)
    {cf₀ : Cf (Configured τ)} (h : MainReady p cf₀) :
    InMain S fd content p (cf₀.workers p) content
      (cf₀.fileStart S.configured fd content name) :=
  ⟨⟨⟨h.core.moduleType, h.core.cmdType, h.core.handler, h.core.slot⟩, h.http⟩, rfl, _, rfl,
    ConfFile.opened_holds (Sys.configured_opens hopen).serves⟩

namespace HttpFile

variable {F : HttpFile} {S : List UInt8 → Sys τ} {fd : Int} {n : Nat} {name : List UInt8}
variable {cf₀ : Cf (Configured τ)}

/-- A file with an empty block is never accepted. -/
theorem empty_rejected (hS : ∀ content, (S content).Allocates)
    (hopen : ∀ content, (S content).Opens fd content) (h : MainReady p cf₀) (hempty : F.body = []) :
    ¬ Accepts S (httpTable ncpu pcalloc) n name cf₀ F.text := by
  intro hacc
  obtain ⟨cf', hrun⟩ := (confParse_file_iff (Sys.configured_opens (hopen F.text)) _ _ _).mp hacc
  have hstart : InMain (S F.text) fd F.text p (cf₀.workers p) F.text
      (cf₀.fileStart (S F.text).configured fd F.text name) := .start (hopen F.text) h
  obtain ⟨u, m, cf₁, -, hmain, hrun₁⟩ := InMain.run_ok (hS F.text) F.hbefore
    (fun item hi => F.other item (List.mem_append_left _ hi)) hstart hrun
  obtain ⟨m₂, cf₂, hstep, hrun₂⟩ := hmain.run_next (hS F.text) F.hopening (Or.inr rfl) hrun₁
  -- the dispatch leaves the tokenizer in front of the `}`
  obtain ⟨conf, hconf, hrc, hargs, hready, -, hheld⟩ :=
    hmain.token (hS F.text) F.hopening (by simp)
  rw [parseStep_directive hconf hrc (Or.inr rfl), dispatch_next_iff hready.core.handler,
    http_dispatch_iff hready hargs] at hstep
  obtain ⟨ctx, sys, -, hcf₂⟩ := hstep
  obtain ⟨conf₂, hconf₂, hheld₂⟩ := hheld
  rw [hempty, List.nil_append] at hheld₂
  have hclose : ∃ cf₃, parseStep (S F.text).configured (httpTable ncpu pcalloc)
      (confParse (S F.text).configured (httpTable ncpu pcalloc) n) .file cf₂
        = .done (.error .unexpectedClose, cf₃) :=
    closing_rejected (hS F.text) (hcf₂ ▸ hconf₂) hheld₂ F.hclosing
  obtain ⟨cf₃, hclose⟩ := hclose
  cases m₂ with
  | zero => simp [Loop.run] at hrun₂
  | succ m₂ =>
    rw [Loop.run_done hclose] at hrun₂
    cases hrun₂

/-- The parser comes to the directive. -/
theorem exists_called (hS : ∀ content, (S content).Allocates)
    (hopen : ∀ content, (S content).Opens fd content) (h : MainReady p cf₀)
    (hbefore : Accepts S (httpTable ncpu pcalloc) n name cf₀ F.before) :
    ∃ cf, F.Called S fd (httpTable ncpu pcalloc) n name cf₀ cf ∧ MainReady p cf ∧
      cf.args = [httpText].map Word.of ∧ F.Before S fd (F.body ++ F.rest) cf := by
  obtain ⟨cf', hrun⟩ :=
    (confParse_file_iff (Sys.configured_opens (hopen F.before)) _ _ _).mp hbefore
  have hstart : InMain (S F.before) fd F.before p (cf₀.workers p) (F.before ++ [])
      (cf₀.fileStart (S F.before).configured fd F.before name) := by
    rw [List.append_nil]
    exact .start (hopen F.before) h
  obtain ⟨u, -, -, hadm, -, -⟩ := InMain.run_ok (hS F.before) F.hbefore
    (fun item hi => F.other item (List.mem_append_left _ hi)) hstart hrun
  -- what is admitted in the one file is admitted in the other
  have hstart' : InMain (S F.text) fd F.text p (cf₀.workers p) F.text
      (cf₀.fileStart (S F.text).configured fd F.text name) := .start (hopen F.text) h
  obtain ⟨cf₁, hreach, hmain⟩ := hstart'.reach (hS F.text)
    (confParse (S F.text).configured (httpTable ncpu pcalloc) n) hadm F.hbefore
  obtain ⟨conf, hconf, -, hargs, hready, -, hheld⟩ :=
    hmain.token (hS F.text) F.hopening (by simp)
  exact ⟨_, ⟨cf₁, conf, hreach, hconf, hmain.conf, rfl⟩, hready, hargs, hheld⟩

end HttpFile

/-- **The block is consumed only when there is nothing to consume.**  The parser comes to the
`http` directive, and `Consumed` holds just when there is no memory for the record, so that the
dispatch fails, and the block is not empty or the rest of the file is not accepted anyway. -/
theorem httpBlock_iff {S : List UInt8 → Sys τ} {fd : Int} (hS : ∀ content, (S content).Allocates)
    (hopen : ∀ content, (S content).Opens fd content) {cf₀ : Cf (Configured τ)}
    (hready : MainReady p cf₀) (n : Nat) (name : List UInt8) (F : HttpFile)
    (hbefore : Accepts S (httpTable ncpu pcalloc) n name cf₀ F.before) :
    ∃ cf, F.Called S fd (httpTable ncpu pcalloc) n name cf₀ cf ∧
      (F.Consumed S fd (httpTable ncpu pcalloc) n name cf₀ cf ↔
        (pcalloc sizeofHttpConfCtx cf.world.sys).1 = none ∧
          (F.body ≠ [] ∨ ¬ Accepts S (httpTable ncpu pcalloc) n name cf₀ F.without)) := by
  obtain ⟨cf, hcalled, hmain, hargs, hheld⟩ := F.exists_called hS hopen hready hbefore
  refine ⟨cf, hcalled, ?_, ?_⟩
  · intro h
    constructor
    · cases hp : pcalloc sizeofHttpConfCtx cf.world.sys with
      | mk ans m =>
        cases ans with
        | none => rfl
        | some ctx =>
          -- the tokenizer is still in front of the block
          have hok : confHandler (S F.text).configured (httpTable ncpu pcalloc)
              (confParse (S F.text).configured (httpTable ncpu pcalloc) n) .blockStart cf
                = (.ok (), { cf with world := cf.world.storeHttp m ctx (cf.view.ctx + 8) }) :=
            (http_dispatch_iff hmain hargs).mpr ⟨ctx, m, hp, rfl⟩
          obtain ⟨conf, hconf, hafter⟩ := h.position _ hok
          obtain ⟨conf', hconf', hbody⟩ := hheld
          obtain rfl : conf' = conf := Option.some.inj (hconf'.symm.trans hconf)
          have hlength := hbody.length_eq.trans hafter.length_eq.symm
          have hclosing := List.length_pos_iff.mpr (token_ne_nil F.hclosing (by simp))
          simp only [HttpFile.rest, List.length_append] at hlength
          omega
    · by_cases hempty : F.body = []
      · exact Or.inr fun hacc =>
          HttpFile.empty_rejected hS hopen hready hempty (h.empty hempty hacc)
      · exact Or.inl hempty
  · rintro ⟨hnone, hrest⟩
    have hfails : ∀ cf', confHandler (S F.text).configured (httpTable ncpu pcalloc)
        (confParse (S F.text).configured (httpTable ncpu pcalloc) n) .blockStart cf
          ≠ (.ok (), cf') := by
      intro cf' hok
      obtain ⟨ctx, m, hp, -⟩ := (http_dispatch_iff hmain hargs).mp hok
      rw [hp] at hnone
      cases hnone
    constructor
    · exact fun cf' hok => absurd hok (hfails cf')
    · exact fun cf' hok => absurd hok (hfails cf')
    · exact fun cf' hok => absurd hok (hfails cf')
    · intro hempty hacc
      exact absurd hacc (hrest.resolve_left (not_not.mpr hempty))

end

/-- A parser set up for the two modules; the record of the core module is at address 1. -/
def sampleMain : Cf (Configured Unit) where
  args := []
  conf := none
  view := { ctx := 8, moduleType := coreModule, cmdType := mainConf, handler := 0 }
  world := { sys := (), slots := fun a => if a = 8 then 1 else 0, core := fun _ => .fresh 0 }

theorem sampleMain_ready : MainReady 1 sampleMain := ⟨⟨rfl, rfl, rfl, rfl⟩, rfl⟩

/-- The file `worker_processes 12;http{}`. -/
def sampleHttp : HttpFile where
  before := sampleParam ++ []
  opening := httpText ++ [123]
  body := []
  closing := [125]
  behind := []
  tail := []
  itemsBefore := [.simple [workerProcessesText, [49, 50]]]
  items := []
  itemsBehind := []
  hbefore := .simple rfl .nil
  hopening := rfl
  hbody := .nil
  hclosing := rfl
  hbehind := .nil
  htail := rfl
  other := by
    intro item hitem
    obtain rfl := List.mem_singleton.mp hitem
    exact fun he => absurd (Option.some.inj he) (by decide)

/-- Memory is found at address 4096. -/
def sampleAlloc (_ : Nat) (w : Unit) : Option Nat × Unit := (some 4096, w)

/-- The statement for `worker_processes 12;http{}`. -/
theorem httpBlock_iff_sample :
    ∃ cf, sampleHttp.Called Sys.plain 3 (httpTable 4 sampleAlloc) 0 [] sampleMain cf ∧
      (sampleHttp.Consumed Sys.plain 3 (httpTable 4 sampleAlloc) 0 [] sampleMain cf ↔
        (sampleAlloc sizeofHttpConfCtx cf.world.sys).1 = none ∧ (sampleHttp.body ≠ [] ∨
          ¬ Accepts Sys.plain (httpTable 4 sampleAlloc) 0 [] sampleMain sampleHttp.without)) :=
  httpBlock_iff Sys.plain_allocates Sys.plain_opens sampleMain_ready 0 [] sampleHttp (by rfl)

/-- Without its empty block the file is accepted, and with it it is not. -/
theorem sampleHttp_notConsumed :
    ∃ cf, sampleHttp.Called Sys.plain 3 (httpTable 4 sampleAlloc) 0 [] sampleMain cf ∧
      ¬ sampleHttp.Consumed Sys.plain 3 (httpTable 4 sampleAlloc) 0 [] sampleMain cf := by
  obtain ⟨cf, hcalled, -⟩ := sampleHttp.exists_called Sys.plain_allocates Sys.plain_opens
    sampleMain_ready (show Accepts Sys.plain (httpTable 4 sampleAlloc) 0 [] sampleMain _ by rfl)
  refine ⟨cf, hcalled, fun h => ?_⟩
  have hwithout : Accepts Sys.plain (httpTable 4 sampleAlloc) 0 [] sampleMain sampleHttp.without :=
    by rfl
  have hrejected : (confParse (Sys.plain sampleHttp.text).configured (httpTable 4 sampleAlloc) 1
      (some []) sampleMain).1 = .error .unexpectedClose := by rfl
  have haccepted := h.empty rfl hwithout
  exact absurd (hrejected.symm.trans haccepted) (by simp)

end Capwap
