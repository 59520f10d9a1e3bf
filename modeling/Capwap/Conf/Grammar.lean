/-
# The grammar of configuration files

What a directive table accepts, as a grammar: a sequence of items, each being words and `;`, or
words, `{`, items and `}`, where every item fits a command of the table and its handler accepts
it.  `Items` is this judgement over the successive results of the tokenizer, with the tree of
items as an index; the world is threaded through, since handlers may keep state.

`confParse_iff` is soundness and completeness of the parser for regular tables.  The parser, the
dispatch and the handlers call each other; the induction for soundness is on the depth of the
calls and, inside, on the rounds of one loop (`loop_sound`), the one for completeness on the
derivation (`Items.loop`).  Every token that is not the last takes at least one byte
(`readToken_ok`), which bounds both depth and rounds by the length of the file.
-/
import Capwap.Conf.Calls
import Capwap.Conf.Dispatch

namespace Capwap

/-! ## 1. The grammar

`Items` is written over the calls of the tokenizer and not over the text: the derivation says which
call yields which words, and the relation between calls and text is that of `Conf/Refine.lean`.
The world is an index before and after, since an item may be accepted because of what an earlier
one did. -/

/-- The tree of a directive: its words, and for a block what is in it. -/
inductive Item
  | simple (words : List (List UInt8))
  | block (words : List (List UInt8)) (body : List Item)

section
variable {σ : Type}

/-- A handler of each kind does what it should: one without a block leaves the parser state
alone, one with a block has the parser read it, with a view of its own, and returns the result
with the view restored. -/
structure Table.Regular (T : Table σ) : Prop where
  names : T.NamesOk
  simple : ∀ m cmd, (m, cmd) ∈ T.commands → cmd.type &&& confBlock = 0 →
    ∀ view args p w, view.handler = 0 → ∃ rv w', cmd.set view args p w = .ret rv view w'
  block : ∀ m cmd, (m, cmd) ∈ T.commands → cmd.type &&& confBlock ≠ 0 →
    ∀ view args p w, view.handler = 0 →
      ∃ view' w' k, cmd.set view args p w = .parse none view' w' k ∧ view'.handler = 0 ∧
        ∀ rv v a w₁, ∃ w₂, k rv v a w₁ = .ret rv view w₂

/-- The items read from a place of the text on, up to the code that ends them.  A block's body is
derived in the view its handler sets, and ends at a `}`; what follows is derived in the view of the
block again. -/
inductive Items (S : Sys σ) (T : Table σ) :
    View → ConfFile → σ → List Item → Rc → ConfFile → σ → Prop
  | stop {view : View} {conf : ConfFile} {w : σ} {rc : Rc}
      (hrc : (readToken S conf w).rc = .ok rc) (hend : rc = .blockDone ∨ rc = .fileDone) :
      Items S T view conf w [] rc (readToken S conf w).conf (readToken S conf w).world
  | simple {view : View} {conf conf' : ConfFile} {w w₂ w' : σ} {rc : Rc} {items : List Item}
      {words : List (List UInt8)} {m : Module σ} {cmd : Command σ}
      (hrc : (readToken S conf w).rc = .ok .ok)
      (hwords : (readToken S conf w).args = words.map Word.of)
      (hfits : Fits T view words .ok m cmd)
      (hset : cmd.set view (words.map Word.of)
        (confPointer S view m cmd (readToken S conf w).world) (readToken S conf w).world
          = .ret .ok view w₂)
      (hrest : Items S T view (readToken S conf w).conf w₂ items rc conf' w') :
      Items S T view conf w (.simple words :: items) rc conf' w'
  | block {view view' : View} {conf conf₁ conf' : ConfFile} {w w₂ w₃ w₄ w' : σ} {rc : Rc}
      {items body : List Item} {words : List (List UInt8)} {m : Module σ} {cmd : Command σ}
      {k : Rv → View → List Word → σ → Act σ}
      (hrc : (readToken S conf w).rc = .ok .blockStart)
      (hwords : (readToken S conf w).args = words.map Word.of)
      (hfits : Fits T view words .blockStart m cmd)
      (hset : cmd.set view (words.map Word.of)
        (confPointer S view m cmd (readToken S conf w).world) (readToken S conf w).world
          = .parse none view' w₂ k)
      (hbody : Items S T view' (readToken S conf w).conf w₂ body .blockDone conf₁ w₃)
      (hk : k .ok view' [] w₃ = .ret .ok view w₄)
      (hrest : Items S T view conf₁ w₄ items rc conf' w') :
      Items S T view conf w (.block words body :: items) rc conf' w'

/-! ## 2. What a token takes

What makes all the inductions end.  A call that returns a code other than that of the end takes a
byte at least, so after it less is left of the text. -/

/-- A lexeme with a code: what it consists of and how much of the text it takes.  Only at the end
of the text it may take nothing. -/
theorem lex_ok {limit : Option Nat} {text rest : List UInt8} {rc : Rc}
    {words : List (List UInt8)} (h : lex limit text = (⟨.ok rc, words⟩, rest)) :
    (rc = .fileDone ∧ words = [] ∧ rest = []) ∨
      (rest.length < text.length ∧ ((rc = .blockDone ∧ words = []) ∨
        ((rc = .ok ∨ rc = .blockStart) ∧ words ≠ []))) := by
  rcases Loop.feed_cases (Lexer.step limit) Lexer.eof text .start with
    ⟨s, -, hf⟩ | ⟨pre, c, post, s, o, rfl, ha, hd, hf⟩
  · rw [lex, hf] at h
    obtain ⟨heof, rfl⟩ := Prod.mk.inj h
    unfold Lexer.eof at heof
    split at heof
    · rename_i hdone
      obtain ⟨hrc, hw⟩ := Lexeme.mk.inj heof
      exact Or.inl ⟨(Except.ok.inj hrc).symm, hw ▸ hdone.1, rfl⟩
    · exact absurd (Lexeme.mk.inj heof).1 (by simp)
  · rw [lex, hf] at h
    obtain ⟨rfl, rfl⟩ := Prod.mk.inj h
    have hok : s.Ok := by
      refine Loop.advance_invariant (I := Lexer.Ok) ?_
        Lexer.start_ok ha
      intro s s' c _ hs
      rw [Lexer.step_off (Lexer.off_of_next hs)] at hs
      exact (Lexer.read_next hs).2
    by_cases hlimit : limit = some s.since
    · rw [Lexer.step_at hlimit] at hd
      cases hd
    · rw [Lexer.step_off hlimit] at hd
      refine Or.inr ⟨by simp only [List.length_append, List.length_cons]; omega, ?_⟩
      rcases Lexer.read_done hok hd with ⟨hw, ⟨-, hrc⟩ | ⟨-, hrc⟩⟩ | ⟨hw, -, hrc⟩ | hrc
      · exact Or.inr ⟨Or.inl (Except.ok.inj hrc), hw⟩
      · exact Or.inr ⟨Or.inr (Except.ok.inj hrc), hw⟩
      · exact Or.inl ⟨Except.ok.inj hrc, hw⟩
      · cases hrc

/-- A call that returns a code leaves the file in order, with the rest of the text to come, and its
words are those of the lexer. -/
theorem readToken_ok {S : Sys σ} (hS : S.Allocates) {src : Source} {conf : ConfFile}
    {text : List UInt8} (h : conf.Holds S src text) {w : σ} {rc : Rc}
    (hrc : (readToken S conf w).rc = .ok rc) :
    ∃ words rest, lex src.limit text = (⟨.ok rc, words⟩, rest) ∧
      (readToken S conf w).args = words.map Word.of ∧
      (readToken S conf w).conf.Holds S src rest := by
  have hsame := readToken_refines hS h w
  generalize lex src.limit text = x at hsame
  obtain ⟨⟨rc', words⟩, rest⟩ := x
  obtain ⟨hag, hargs, -, hconf⟩ := hsame
  simp only [hrc] at hag hargs hconf
  cases hag
  exact ⟨words, rest, rfl, hargs, (hconf (by simp)).1⟩

/-! ## 3. Soundness

What the parser accepts has a derivation.  A handler may ask for a parse, which is the same
function at a smaller depth; so the statement is about any parser that is sound for blocks, and the
induction puts the two together. -/

section
variable {S : Sys σ} {T : Table σ} {src : Source}

/-- A parser that only reads blocks of regular tables: what it accepts is derivable, and it leaves
the view as it was and no words.  This is the induction hypothesis on the depth. -/
def SoundParser (S : Sys σ) (T : Table σ) (src : Source) (parse : Parser σ) : Prop :=
  ∀ cf cf' conf text, cf.conf = some conf → conf.Holds S src text → cf.view.handler = 0 →
    parse none cf = (.ok (), cf') →
    ∃ items conf' rest, Items S T cf.view conf cf.world items .blockDone conf' cf'.world ∧
      cf'.conf = some conf' ∧ cf'.view = cf.view ∧ cf'.args = [] ∧ conf'.Holds S src rest

/-- The code that ends a text of some kind. -/
def ParseType.last : ParseType → Rc
  | .block => .blockDone
  | .file => .fileDone
  | .param => .fileDone

/-- One dispatched token, and the items that follow it: with a derivation of these there is one of
both. -/
theorem dispatch_sound (hT : T.Regular) {parse : Parser σ} (hparse : SoundParser S T src parse)
    {conf : ConfFile} {w : σ} {rc : Rc} {words : List (List UInt8)} {rest : List UInt8}
    {view : View} {cf₁ : Cf σ} (hterm : rc = .ok ∨ rc = .blockStart) (hview : view.handler = 0)
    (hrc : (readToken S conf w).rc = .ok rc)
    (hwords : (readToken S conf w).args = words.map Word.of)
    (hholds : (readToken S conf w).conf.Holds S src rest)
    (hstep : dispatch S T parse rc ⟨(readToken S conf w).args, some (readToken S conf w).conf,
      view, (readToken S conf w).world⟩ = .next cf₁) :
    ∃ conf₁ rest₁, cf₁.conf = some conf₁ ∧ conf₁.Holds S src rest₁ ∧ cf₁.view = view ∧
      ∀ {items last conf' w'}, Items S T view conf₁ cf₁.world items last conf' w' →
        ∃ item, Items S T view conf w (item :: items) last conf' w' := by
  unfold dispatch at hstep
  rw [if_neg (not_not.mpr hview)] at hstep
  split at hstep
  · exact absurd hstep (by simp)
  · rename_i u cf₂ hdisp
    obtain rfl : cf₂ = cf₁ := Step.next.inj hstep
    obtain ⟨m, cmd, hfits, hrun⟩ := (confHandler_ok_iff hT.names hterm hwords).mp hdisp
    obtain ⟨name, tail, -, hfirst⟩ := hfits.first
    simp only [hwords] at hrun
    by_cases hblock : cmd.type &&& confBlock = 0
    · -- a simple directive: the handler returns at once
      obtain rfl : rc = .ok := hterm.resolve_right fun he => hfits.terminator.mpr he hblock
      obtain ⟨rv, w₂, hset⟩ := hT.simple m cmd hfirst.mem hblock view (words.map Word.of)
        (confPointer S view m cmd (readToken S conf w).world) (readToken S conf w).world hview
      rw [hset] at hrun
      simp only [Act.run, Prod.mk.injEq] at hrun
      obtain ⟨rfl, rfl⟩ := hrun
      exact ⟨_, rest, rfl, hholds, rfl, fun hitems =>
        ⟨_, .simple hrc hwords hfits hset hitems⟩⟩
    · -- a block: the handler has the parser read it
      obtain rfl : rc = .blockStart := hfits.terminator.mp hblock
      obtain ⟨view', w₂, k, hset, hview', hk⟩ := hT.block m cmd hfirst.mem hblock view
        (words.map Word.of) (confPointer S view m cmd (readToken S conf w).world)
        (readToken S conf w).world hview
      rw [hset] at hrun
      simp only [Act.run] at hrun
      generalize hcall : parse none ⟨words.map Word.of, some (readToken S conf w).conf, view',
        w₂⟩ = x at hrun
      obtain ⟨res, cf₃⟩ := x
      obtain ⟨w₄, hret⟩ := hk (Rv.of res) cf₃.view cf₃.args cf₃.world
      simp only [hret, Act.run, Prod.mk.injEq] at hrun
      obtain ⟨hres, rfl⟩ := hrun
      have hok : res = .ok () := by
        cases res with
        | ok u => rfl
        | error e => exact absurd hres (by simp [Rv.of])
      rw [hok] at hcall hret
      obtain ⟨body, conf₁, rest₁, hbody, hconf, hv, hargs, hholds₁⟩ :=
        hparse _ _ _ _ rfl hholds hview' hcall
      rw [hv, hargs] at hret
      exact ⟨conf₁, rest₁, hconf, hholds₁, rfl, fun hitems =>
        ⟨_, .block hrc hwords hfits hset hbody hret hitems⟩⟩

/-- One loop.  The induction is on its rounds; a round that goes on has dispatched a directive, and
is the first item of the rest. -/
theorem loop_sound (hS : S.Allocates) (hT : T.Regular) {parse : Parser σ}
    (hparse : SoundParser S T src parse) {type : ParseType} (htype : type ≠ .param) :
    ∀ (n : Nat) (cf : Cf σ) {cf' : Cf σ} {conf : ConfFile} {text : List UInt8},
      cf.conf = some conf → conf.Holds S src text → cf.view.handler = 0 →
      Loop.run (parseStep S T parse type) n cf = some (.ok (), cf') →
      ∃ items conf' rest, Items S T cf.view conf cf.world items type.last conf' cf'.world ∧
        cf'.conf = some conf' ∧ cf'.view = cf.view ∧ cf'.args = [] ∧ conf'.Holds S src rest := by
  intro n
  induction n with
  | zero =>
    intro cf cf' conf text _ _ _ hrun
    simp [Loop.run] at hrun
  | succ n ih =>
    intro cf cf' conf text hconf hholds hview hrun
    -- a dispatched token is followed by the items of the next rounds
    have hgo : ∀ {rc : Rc}, rc = .ok ∨ rc = .blockStart →
        (readToken S conf cf.world).rc = .ok rc →
        parseStep S T parse type cf = dispatch S T parse rc ⟨(readToken S conf cf.world).args,
          some (readToken S conf cf.world).conf, cf.view, (readToken S conf cf.world).world⟩ →
        ∃ items conf' rest, Items S T cf.view conf cf.world items type.last conf' cf'.world ∧
          cf'.conf = some conf' ∧ cf'.view = cf.view ∧ cf'.args = [] ∧ conf'.Holds S src rest := by
      intro rc hterm hrc hstep
      obtain ⟨words, rest, -, hwords, hh⟩ := readToken_ok hS hholds hrc
      cases hd : dispatch S T parse rc ⟨(readToken S conf cf.world).args,
          some (readToken S conf cf.world).conf, cf.view, (readToken S conf cf.world).world⟩ with
      | done r =>
        rw [Loop.run_done (hstep.trans hd)] at hrun
        unfold dispatch at hd
        rw [if_neg (not_not.mpr hview)] at hd
        split at hd
        · cases hd
          simp at hrun
        · exact absurd hd (by simp)
      | next cf₁ =>
        rw [Loop.run_next (hstep.trans hd)] at hrun
        obtain ⟨conf₁, rest₁, hc₁, hh₁, hv₁, hcons⟩ :=
          dispatch_sound hT hparse hterm hview hrc hwords hh hd
        obtain ⟨items, conf', rest', hitems, hc', hv', ha', hh'⟩ :=
          ih _ hc₁ hh₁ (by rw [hv₁]; exact hview) hrun
        rw [hv₁] at hitems hv'
        obtain ⟨item, hall⟩ := hcons hitems
        exact ⟨item :: items, conf', rest', hall, hc', hv', ha', hh'⟩
    -- a token that ends the text
    have hstop : ∀ {rc : Rc}, rc = .blockDone ∨ rc = .fileDone → type.last = rc →
        (readToken S conf cf.world).rc = .ok rc →
        parseStep S T parse type cf = .done (.ok (), ⟨(readToken S conf cf.world).args,
          some (readToken S conf cf.world).conf, cf.view, (readToken S conf cf.world).world⟩) →
        ∃ items conf' rest, Items S T cf.view conf cf.world items type.last conf' cf'.world ∧
          cf'.conf = some conf' ∧ cf'.view = cf.view ∧ cf'.args = [] ∧ conf'.Holds S src rest := by
      intro rc hend hlast hrc hstep
      rw [Loop.run_done hstep] at hrun
      obtain rfl := (Prod.mk.inj (Option.some.inj hrun)).2
      obtain ⟨words, rest, hlex, hwords, hh⟩ := readToken_ok hS hholds hrc
      have hnil : words = [] := by
        rcases lex_ok hlex with ⟨-, hw, -⟩ | ⟨-, ⟨-, hw⟩ | ⟨h1 | h1, -⟩⟩
        · exact hw
        · exact hw
        · rcases hend with rfl | rfl <;> simp at h1
        · rcases hend with rfl | rfl <;> simp at h1
      rw [hlast]
      exact ⟨[], _, rest, .stop hrc hend, rfl, rfl, by rw [hwords, hnil]; rfl, hh⟩
    cases hrc : (readToken S conf cf.world).rc with
    | error e =>
      have hstep : parseStep S T parse type cf = .done (.error (.token e),
          ⟨(readToken S conf cf.world).args, some (readToken S conf cf.world).conf, cf.view,
            (readToken S conf cf.world).world⟩) := by
        simp only [parseStep, hconf, hrc]
      rw [Loop.run_done hstep] at hrun
      simp at hrun
    | ok rc =>
      cases rc with
      | ok => exact hgo (Or.inl rfl) hrc (by simp only [parseStep, hconf, hrc])
      | blockStart =>
        exact hgo (Or.inr rfl) hrc (by simp only [parseStep, hconf, hrc, if_neg htype])
      | blockDone =>
        cases htype' : type with
        | block =>
          subst htype'
          exact hstop (Or.inl rfl) rfl hrc (by simp [parseStep, hconf, hrc])
        | file =>
          subst htype'
          have hstep : parseStep S T parse .file cf = .done (.error .unexpectedClose,
              ⟨(readToken S conf cf.world).args, some (readToken S conf cf.world).conf, cf.view,
                (readToken S conf cf.world).world⟩) := by
            simp [parseStep, hconf, hrc]
          rw [Loop.run_done hstep] at hrun
          simp at hrun
        | param => exact absurd htype' htype
      | fileDone =>
        cases htype' : type with
        | file =>
          subst htype'
          exact hstop (Or.inr rfl) rfl hrc (by simp [parseStep, hconf, hrc])
        | block =>
          subst htype'
          have hstep : parseStep S T parse .block cf = .done (.error .unexpectedEof,
              ⟨(readToken S conf cf.world).args, some (readToken S conf cf.world).conf, cf.view,
                (readToken S conf cf.world).world⟩) := by
            simp [parseStep, hconf, hrc]
          rw [Loop.run_done hstep] at hrun
          simp at hrun
        | param => exact absurd htype' htype

/-- Every bounded parser is sound.  The induction is on the depth. -/
theorem confParse_sound (hS : S.Allocates) (hT : T.Regular) (hfd : src.fd ≠ invalidFile) :
    ∀ n, SoundParser S T src (confParse S T n) := by
  intro n
  induction n with
  | zero =>
    intro cf cf' conf text _ _ _ hrun
    simp [confParse] at hrun
  | succ n ih =>
    intro cf cf' conf text hconf hholds hview hrun
    have hblock : conf.file.fd ≠ invalidFile := by rw [hholds.fd_eq]; exact hfd
    simp only [confParse, hconf, if_pos hblock, parseLoop] at hrun
    split at hrun
    · rename_i r hr
      subst hrun
      exact loop_sound hS hT ih (by simp) _ _ hconf hholds hview hr
    · simp at hrun

/-! ## 4. Completeness

A derivation is run through the parser from the front.  The bounds are the point here: each item
takes a byte at least, and so does each block around it, so the bytes that are left bound the
rounds still to come and the depth still needed. -/

/-- What is derivable, the loop accepts, with as many rounds and as much depth as there are
bytes.  The induction is on the derivation. -/
theorem Items.loop (hS : S.Allocates) (hT : T.Regular) (hfd : src.fd ≠ invalidFile) {view : View}
    {conf conf' : ConfFile} {w w' : σ} {items : List Item} {last : Rc}
    (h : Items S T view conf w items last conf' w') :
    ∀ (type : ParseType) (n fuel : Nat) (args : List Word) {text : List UInt8},
      conf.Holds S src text → view.handler = 0 → type.last = last → type ≠ .param →
      text.length ≤ n → text.length < fuel →
      Loop.run (parseStep S T (confParse S T n) type) fuel ⟨args, some conf, view, w⟩
          = some (.ok (), ⟨[], some conf', view, w'⟩) ∧
        ∃ rest, conf'.Holds S src rest ∧ rest.length ≤ text.length ∧
          (last = .blockDone → rest.length < text.length) := by
  induction h with
  | @stop view conf w rc hrc hend =>
    intro type n fuel args text hholds hview hlast htype hn hfuel
    obtain ⟨words, rest, hlex, hwords, hh⟩ := readToken_ok hS hholds hrc
    obtain ⟨fuel, rfl⟩ : ∃ f, fuel = f + 1 := ⟨fuel - 1, by omega⟩
    have hnil : words = [] ∧ rest.length ≤ text.length ∧
        (rc = .blockDone → rest.length < text.length) := by
      rcases lex_ok hlex with ⟨rfl, hw, rfl⟩ | ⟨hlt, ⟨-, hw⟩ | ⟨h1 | h1, -⟩⟩
      · exact ⟨hw, Nat.zero_le _, by simp⟩
      · exact ⟨hw, Nat.le_of_lt hlt, fun _ => hlt⟩
      · rcases hend with rfl | rfl <;> simp at h1
      · rcases hend with rfl | rfl <;> simp at h1
    refine ⟨?_, rest, hh, hnil.2⟩
    have hargs : (readToken S conf w).args = [] := by rw [hwords, hnil.1]; rfl
    refine Loop.run_done ?_ fuel
    simp only [parseStep, hrc]
    cases type with
    | block =>
      obtain rfl : Rc.blockDone = rc := hlast
      simp [hargs]
    | file =>
      obtain rfl : Rc.fileDone = rc := hlast
      simp [hargs]
    | param => exact absurd rfl htype
  | @simple view conf conf' w w₂ w' rc items words m cmd hrc hwords hfits hset _ ih =>
    intro type n fuel args text hholds hview hlast htype hn hfuel
    obtain ⟨words', rest, hlex, -, hh⟩ := readToken_ok hS hholds hrc
    have hlt : rest.length < text.length := by
      rcases lex_ok hlex with ⟨h1, -⟩ | ⟨hlt, -⟩
      · simp at h1
      · exact hlt
    obtain ⟨fuel, rfl⟩ : ∃ f, fuel = f + 1 := ⟨fuel - 1, by omega⟩
    have hdisp : confHandler S T (confParse S T n) .ok ⟨(readToken S conf w).args,
        some (readToken S conf w).conf, view, (readToken S conf w).world⟩
          = (.ok (), ⟨words.map Word.of, some (readToken S conf w).conf, view, w₂⟩) := by
      refine (confHandler_ok_iff hT.names (Or.inl rfl) hwords).mpr ⟨m, cmd, hfits, ?_⟩
      simp only [hwords, hset, Act.run]
    have hstep : parseStep S T (confParse S T n) type ⟨args, some conf, view, w⟩
        = .next ⟨words.map Word.of, some (readToken S conf w).conf, view, w₂⟩ := by
      simp only [parseStep, hrc, dispatch]
      rw [if_neg (not_not.mpr hview), hdisp]
    obtain ⟨hrun, rest', hh', hle, hlt'⟩ := ih type n fuel (words.map Word.of) hh hview hlast htype
      (by omega) (by omega)
    rw [Loop.run_next hstep]
    exact ⟨hrun, rest', hh', by omega, fun he => by have := hlt' he; omega⟩
  | @block view view' conf conf₁ conf' w w₂ w₃ w₄ w' rc items body words m cmd k hrc hwords hfits
      hset _ hk _ ihbody ih =>
    intro type n fuel args text hholds hview hlast htype hn hfuel
    obtain ⟨words', rest, hlex, -, hh⟩ := readToken_ok hS hholds hrc
    have hlt : rest.length < text.length := by
      rcases lex_ok hlex with ⟨h1, -⟩ | ⟨hlt, -⟩
      · simp at h1
      · exact hlt
    obtain ⟨fuel, rfl⟩ : ∃ f, fuel = f + 1 := ⟨fuel - 1, by omega⟩
    obtain ⟨n, rfl⟩ : ∃ d, n = d + 1 := ⟨n - 1, by omega⟩
    obtain ⟨name, tail, -, hfirst⟩ := hfits.first
    have hblock := hfits.terminator.mpr rfl
    have hview' : view'.handler = 0 := by
      obtain ⟨v, w₅, k', hset', hv, -⟩ := hT.block m cmd hfirst.mem hblock view
        (words.map Word.of) (confPointer S view m cmd (readToken S conf w).world)
        (readToken S conf w).world hview
      obtain ⟨-, rfl, -⟩ := Act.parse.inj (hset.symm.trans hset')
      exact hv
    -- the body is read by a call one level deeper
    obtain ⟨hrunb, rest₁, hh₁, -, hlt₁⟩ := ihbody .block n (rest.length + 1)
      (words.map Word.of) hh hview' rfl (by simp) (by omega) (by omega)
    have hlt₁ := hlt₁ rfl
    have hcall : confParse S T (n + 1) none
        ⟨words.map Word.of, some (readToken S conf w).conf, view', w₂⟩
          = (.ok (), ⟨[], some conf₁, view', w₃⟩) := by
      have hfd' : (readToken S conf w).conf.file.fd ≠ invalidFile := by
        rw [hh.fd_eq]
        exact hfd
      simp only [confParse, if_pos hfd', parseLoop, Option.map_some, Option.getD_some,
        ← hh.length_eq, hrunb]
    have hdisp : confHandler S T (confParse S T (n + 1)) .blockStart ⟨(readToken S conf w).args,
        some (readToken S conf w).conf, view, (readToken S conf w).world⟩
          = (.ok (), ⟨[], some conf₁, view, w₄⟩) := by
      refine (confHandler_ok_iff hT.names (Or.inr rfl) hwords).mpr ⟨m, cmd, hfits, ?_⟩
      simp only [hwords, hset, Act.run, hcall, Rv.of, hk]
    have hstep : parseStep S T (confParse S T (n + 1)) type ⟨args, some conf, view, w⟩
        = .next ⟨[], some conf₁, view, w₄⟩ := by
      simp only [parseStep, hrc, if_neg htype, dispatch]
      rw [if_neg (not_not.mpr hview), hdisp]
    obtain ⟨hrun, rest', hh', hle, hlt'⟩ := ih type (n + 1) fuel [] hh₁ hview hlast htype
      (by omega) (by omega)
    rw [Loop.run_next hstep]
    exact ⟨hrun, rest', hh', by omega, fun he => by have := hlt' he; omega⟩

end

/-! ## 5. A whole file -/

/-- The file can be opened, has the given content, and can be closed.  There is a buffer for it,
and its size is that of its content. -/
structure Sys.Opens (S : Sys σ) (fd : Int) (content : List UInt8) : Prop where
  valid : fd ≠ invalidFile
  openFile : ∀ name w, (S.openFile name w).1 = fd
  fdInfo : ∀ w, (S.fdInfo fd w).1 = (true, content.length)
  alloc : ∀ n w, (S.alloc n w).1.isSome
  closeFile : ∀ w, (S.closeFile fd w).1 = true
  serves : S.Serves fd content

theorem Sys.plain_opens (content : List UInt8) : (Sys.plain content).Opens 3 content :=
  ⟨by decide, fun _ _ => rfl, fun _ => rfl, fun _ _ => rfl, fun _ => rfl,
    Sys.plain_serves content 3⟩

/-- The world in which the first token of a file is read. -/
def Sys.afterOpen (S : Sys σ) (fd : Int) (name : List UInt8) (w : σ) : σ :=
  (S.alloc confBuffer (S.fdInfo fd (S.openFile name w).2).2).2

/-- The state in which the loop of a file starts. -/
def Cf.fileStart (S : Sys σ) (fd : Int) (content name : List UInt8) (cf : Cf σ) : Cf σ :=
  ⟨cf.args, some (.opened fd content.length), cf.view, S.afterOpen fd name cf.world⟩

/-- The call for a file comes down to its loop: it succeeds just when the loop does, from the state
in which the file is open. -/
theorem confParse_file_iff {S : Sys σ} {T : Table σ} {fd : Int} {content : List UInt8}
    (hopen : S.Opens fd content) (cf : Cf σ) (name : List UInt8) (n : Nat) :
    (confParse S T (n + 1) (some name) cf).1 = .ok () ↔
      ∃ cf', Loop.run (parseStep S T (confParse S T n) .file) (content.length + 1)
        (cf.fileStart S fd content name) = some (.ok (), cf') := by
  have hholds := ConfFile.opened_holds (S := S) hopen.serves
  have h1 := hopen.openFile name cf.world
  have h2 := hopen.fdInfo (S.openFile name cf.world).2
  have h3 := hopen.alloc confBuffer (S.fdInfo fd (S.openFile name cf.world).2).2
  unfold Cf.fileStart Sys.afterOpen
  simp only [confParse, h1, h2, if_neg hopen.valid]
  generalize S.alloc confBuffer (S.fdInfo fd (S.openFile name cf.world).2).2 = x at h3 ⊢
  obtain ⟨ans, w⟩ := x
  cases ans with
  | none => simp at h3
  | some buf =>
    have hunread : ((some (ConfFile.opened fd content.length)).map ConfFile.unread).getD 0 + 1
        = content.length + 1 := by
      rw [Option.map_some, Option.getD_some, ← hholds.length_eq]
    simp only [parseLoop, hunread]
    cases hrun : Loop.run (parseStep S T (confParse S T n) .file) (content.length + 1)
        ⟨cf.args, some (.opened fd content.length), cf.view, w⟩ with
    | none =>
      simp only [closeConf]
      split <;> simp
    | some r =>
      have hclose := hopen.closeFile (S.free buf r.2.world)
      generalize hc : S.closeFile fd (S.free buf r.2.world) = y at hclose
      obtain ⟨b, w'⟩ := y
      simp only at hclose
      subst hclose
      simp only [closeConf, hc]
      obtain ⟨res, cf'⟩ := r
      simp only
      constructor
      · rintro rfl
        exact ⟨cf', rfl⟩
      · rintro ⟨cf'', h⟩
        exact (Prod.mk.inj (Option.some.inj h)).1

/-- **The parser accepts exactly the files of the grammar.**  For every regular table, every file
content and every call without a custom handler, with more depth than the file has bytes.  A
derivation knows nothing of depth, so a larger bound changes nothing. -/
theorem confParse_iff {S : Sys σ} {T : Table σ} {fd : Int} {content : List UInt8}
    (hS : S.Allocates) (hopen : S.Opens fd content) (hT : T.Regular) {cf : Cf σ}
    (hview : cf.view.handler = 0) (name : List UInt8) {n : Nat} (hn : content.length < n) :
    (confParse S T n (some name) cf).1 = .ok () ↔
      ∃ items conf' w', Items S T cf.view (.opened fd content.length)
        (S.afterOpen fd name cf.world) items .fileDone conf' w' := by
  obtain ⟨n, rfl⟩ : ∃ d, n = d + 1 := ⟨n - 1, by omega⟩
  have hholds := ConfFile.opened_holds (S := S) hopen.serves
  have hfd : (Source.file fd content).fd ≠ invalidFile := hopen.valid
  rw [confParse_file_iff hopen]
  constructor
  · rintro ⟨cf', hrun⟩
    obtain ⟨items, conf', rest, hitems, -⟩ := loop_sound hS hT
      (confParse_sound hS hT hfd n) (show ParseType.file ≠ .param by simp) _
      (cf.fileStart S fd content name) rfl hholds hview hrun
    exact ⟨items, conf', _, hitems⟩
  · rintro ⟨items, conf', w', hitems⟩
    obtain ⟨hrun, -⟩ := hitems.loop hS hT hfd .file n (content.length + 1) cf.args hholds hview
      rfl (by simp) (by omega) (by omega)
    exact ⟨_, hrun⟩

end

/-- A directive `b` without a block, and a block `a` in which it may stand. -/
def sampleTable : Table Unit where
  modules := [{
    type := coreModule, index := 0, ctxIndex := 0
    commands := some [
      { name := [98], type := mainConf ||| confTake1, conf := 0
        set := fun view _ _ w => .ret .ok view w },
      { name := [97], type := mainConf ||| confBlock ||| confAny, conf := 0
        set := fun view _ _ w => .parse none view w fun rv _ _ w => .ret rv view w }] }]
  custom _ view _ w := .ret .ok view w

theorem sampleTable_regular : sampleTable.Regular where
  names := by simp [Table.NamesOk, Table.commands, sampleTable]
  simple m cmd h hb view args p w hv := by
    simp only [sampleTable, Table.commands, List.flatMap_cons, List.flatMap_nil, Option.getD_some,
      List.map_cons, List.map_nil, List.append_nil, List.mem_cons, List.not_mem_nil, or_false,
      Prod.mk.injEq] at h
    rcases h with ⟨rfl, rfl⟩ | ⟨rfl, rfl⟩
    · exact ⟨_, _, rfl⟩
    · exact absurd hb (by decide)
  block m cmd h hb view args p w hv := by
    simp only [sampleTable, Table.commands, List.flatMap_cons, List.flatMap_nil, Option.getD_some,
      List.map_cons, List.map_nil, List.append_nil, List.mem_cons, List.not_mem_nil, or_false,
      Prod.mk.injEq] at h
    rcases h with ⟨rfl, rfl⟩ | ⟨rfl, rfl⟩
    · exact absurd (by decide) hb
    · exact ⟨_, _, _, rfl, hv, fun _ _ _ _ => ⟨_, rfl⟩⟩

/-- `a 1{b 2;}` -/
def sampleText : List UInt8 := [97, 32, 49, 123, 98, 32, 50, 59, 125]

/-- A block with a directive in it is accepted, so it has a derivation. -/
theorem confParse_iff_sample :
    let view : View := { ctx := 0, moduleType := coreModule, cmdType := mainConf, handler := 0 }
    ∃ items conf' w', Items (Sys.plain sampleText) sampleTable view (.opened 3 sampleText.length)
        ((Sys.plain sampleText).afterOpen 3 [] ()) items .fileDone conf' w' :=
  (@confParse_iff Unit (Sys.plain sampleText) sampleTable 3 sampleText (Sys.plain_allocates _)
    (Sys.plain_opens _) sampleTable_regular { args := [], conf := none, view := _, world := () }
    rfl [] 10 (by decide)).mp (by rfl)

end Capwap
