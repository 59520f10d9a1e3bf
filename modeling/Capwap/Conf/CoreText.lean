/-
# Which parameters the core module accepts

With the core module alone, `cw_conf_param` reads at most one directive: a second one is a
duplicate, since a successful first one has set the value.  What is left is the tokenizer
(`feed_filler_iff`: a call finds no directive exactly when blanks and comments are all there is),
the dispatch, and the handler's own reading of the value.

The handler compares the value with `auto` by `cw_strcmp`, and so does not look behind a NUL: this
is the one difference between the texts accepted and the texts of the grammar (`coreParam_iff`).
-/
import Capwap.Conf.Core
import Capwap.Conf.Dispatch
import Capwap.Conf.Calls
import Capwap.Conf.Grammar
import Capwap.Conf.Resources

namespace Capwap

/-! ## 1. Blanks and comments

A call of the tokenizer that reports the end of the text has met nothing that begins a word.  The
lexer forgets comments and blanks as it goes, and what it does not forget is that a word was begun
(`Busy`). -/

/-- Blanks and comments; the last comment may end with the text. -/
inductive Filler : List UInt8 → Prop
  | nil : Filler []
  | blank {c : UInt8} {text : List UInt8} (hc : isBlank c = true) (h : Filler text) :
      Filler (c :: text)
  | comment {body text : List UInt8} (hbody : Ch.lf ∉ body) (h : Filler text) :
      Filler (Ch.sharp :: (body ++ Ch.lf :: text))
  | last {body : List UInt8} (hbody : Ch.lf ∉ body) : Filler (Ch.sharp :: body)

theorem filler_blank_iff {c : UInt8} (hc : isBlank c = true) {text : List UInt8} :
    Filler (c :: text) ↔ Filler text := by
  constructor
  · intro h
    cases h with
    | blank _ h => exact h
    | comment _ _ => exact absurd hc (by decide)
    | last _ => exact absurd hc (by decide)
  · exact .blank hc

/-- A comment that a line feed ends. -/
theorem filler_comment_lf {text : List UInt8} :
    Filler (Ch.sharp :: Ch.lf :: text) ↔ Filler text := by
  constructor
  · intro h
    generalize hx : Ch.sharp :: Ch.lf :: text = x at h
    cases h with
    | nil => cases hx
    | blank hc _ =>
      obtain ⟨rfl, -⟩ := List.cons.inj hx
      exact absurd hc (by decide)
    | @comment body t hbody h =>
      cases body with
      | nil =>
        obtain ⟨-, ht⟩ := List.cons.inj (List.cons.inj hx).2
        exact ht ▸ h
      | cons b body =>
        obtain ⟨rfl, -⟩ := List.cons.inj (List.cons.inj hx).2
        exact absurd List.mem_cons_self hbody
    | last hbody =>
      obtain ⟨-, rfl⟩ := List.cons.inj hx
      exact absurd List.mem_cons_self hbody
  · exact @Filler.comment [] text (by simp)

/-- Any other byte of a comment. -/
theorem filler_comment_byte {c : UInt8} (hc : c ≠ Ch.lf) {text : List UInt8} :
    Filler (Ch.sharp :: c :: text) ↔ Filler (Ch.sharp :: text) := by
  constructor
  · intro h
    generalize hx : Ch.sharp :: c :: text = x at h
    cases h with
    | nil => cases hx
    | blank hb _ =>
      obtain ⟨rfl, -⟩ := List.cons.inj hx
      exact absurd hb (by decide)
    | @comment body t hbody h =>
      cases body with
      | nil => exact absurd (List.cons.inj (List.cons.inj hx).2).1 hc
      | cons b body =>
        obtain ⟨-, rfl⟩ := List.cons.inj (List.cons.inj hx).2
        exact .comment (fun hm => hbody (List.mem_cons_of_mem _ hm)) h
    | last hbody =>
      obtain ⟨-, rfl⟩ := List.cons.inj hx
      exact .last fun hm => hbody (List.mem_cons_of_mem _ hm)
  · intro h
    generalize hx : Ch.sharp :: text = x at h
    cases h with
    | nil => cases hx
    | blank hb _ =>
      obtain ⟨rfl, -⟩ := List.cons.inj hx
      exact absurd hb (by decide)
    | @comment body t hbody h =>
      obtain ⟨-, rfl⟩ := List.cons.inj hx
      refine @Filler.comment (c :: body) t ?_ h
      rw [List.mem_cons, not_or]
      exact ⟨hc.symm, hbody⟩
    | last hbody =>
      obtain ⟨-, rfl⟩ := List.cons.inj hx
      refine .last ?_
      rw [List.mem_cons, not_or]
      exact ⟨hc.symm, hbody⟩

namespace Lexer

/-- A word has been begun. -/
def Busy (s : Lexer) : Prop := s.words ≠ [] ∨ ∃ q var esc, s.mode = .word q var esc

theorem inGap_words {s s' : Lexer} {c : UInt8} (h : s.inGap c = .next s') :
    s'.words = s.words := by
  unfold inGap ret at h
  split_ifs at h <;> cases h <;> rfl

/-- A word that has been begun does not go away. -/
theorem busy_next {s s' : Lexer} {c : UInt8} (hok : s.Ok) (hb : s.Busy)
    (h : s.read c = .next s') : s'.Busy := by
  have hwords : ∀ {t t' : Lexer}, t'.words = t.words → t.words ≠ [] → t'.Busy :=
    fun he hne => Or.inl (he ▸ hne)
  have hgap : s.words ≠ [] → ∀ {t : Lexer}, s.inGap c = .next t → t.Busy :=
    fun hne _ ht => hwords (inGap_words ht) hne
  unfold read at h
  split at h
  · rename_i hm
    refine hgap (hb.resolve_right ?_) h
    rintro ⟨q, var, esc, hw⟩
    rw [hm] at hw
    cases hw
  · rename_i hm
    cases h
    refine Or.inl (hb.resolve_right ?_)
    rintro ⟨q, var, esc, hw⟩
    rw [hm] at hw
    cases hw
  · rename_i hm
    unfold inClosed ret at h
    split_ifs at h
    · cases h
      exact Or.inl (hok hm)
    · exact hgap (hok hm) h
  · cases h
    exact Or.inr ⟨_, _, _, rfl⟩
  · unfold inWord endWord ret at h
    split_ifs at h <;> cases h
    · exact Or.inr ⟨_, _, _, rfl⟩
    · exact Or.inr ⟨_, _, _, rfl⟩
    · exact Or.inr ⟨_, _, _, rfl⟩
    · exact Or.inl (by simp)
    · exact Or.inl (by simp)
    · exact Or.inr ⟨_, _, _, rfl⟩

/-- Then the call does not find the text empty. -/
theorem feed_busy {s : Lexer} (hok : s.Ok) (hb : s.Busy) (text : List UInt8) :
    (Loop.feed (step none) eof s text).1.rc ≠ .ok .fileDone := by
  have hinv : ∀ {xs : List UInt8} {t : Lexer}, Loop.advance (step none) s xs = some t →
      t.Ok ∧ t.Busy :=
    Loop.advance_invariant (I := fun t : Lexer => t.Ok ∧ t.Busy)
      (fun t t' c ht hs => by
        rw [step_none] at hs
        exact ⟨(read_next hs).2, busy_next ht.1 ht.2 hs⟩) ⟨hok, hb⟩
  rcases Loop.feed_cases (step none) eof text s with
    ⟨t, ha, hf⟩ | ⟨pre, c, post, t, o, -, ha, hd, hf⟩
  · rw [hf]
    obtain ⟨-, hbusy⟩ := hinv ha
    simp only [eof]
    rw [if_neg]
    · simp
    · rintro ⟨hw, hm⟩
      rcases hbusy with hne | ⟨q, var, esc, hword⟩
      · exact hne hw
      · rw [hword] at hm
        simp at hm
  · rw [hf]
    rw [step_none] at hd
    intro hrc
    rcases read_done (hinv ha).1 hd with ⟨-, ⟨-, h⟩ | ⟨-, h⟩⟩ | ⟨-, -, h⟩ | h <;>
      rw [hrc] at h <;> simp at h

/-- Between words, a byte that is neither a blank nor a `#` begins a word or ends the call. -/
theorem inGap_other {s s' : Lexer} {c : UInt8} (hblank : isBlank c = false) (hsharp : c ≠ Ch.sharp)
    (h : s.inGap c = .next s') : s'.Busy := by
  unfold inGap ret at h
  simp only [hblank, Bool.false_eq_true, if_false, hsharp] at h
  split_ifs at h <;> cases h <;> exact Or.inr ⟨_, _, _, rfl⟩

/-- With no word read, a call finds nothing but blanks and comments exactly when there is nothing
else.  The induction is on the text, in both modes at once: between words, and in a comment. -/
theorem feed_filler : ∀ (text : List UInt8) (s : Lexer), s.words = [] →
    (s.mode = .gap → ((Loop.feed (step none) eof s text).1.rc = .ok .fileDone ↔ Filler text)) ∧
    (s.mode = .comment →
      ((Loop.feed (step none) eof s text).1.rc = .ok .fileDone ↔ Filler (Ch.sharp :: text)))
  | [], s, hw => by
    constructor
    · intro hm
      simpa [eof, hw, hm] using Filler.nil
    · intro hm
      simpa [eof, hw, hm] using @Filler.last [] (by simp)
  | c :: text, s, hw => by
    constructor
    · intro hm
      by_cases hblank : isBlank c = true
      · rw [Loop.feed_next ((step_none s c).trans ((read_gap hm).trans (inGap_blank hblank))),
          filler_blank_iff hblank]
        exact (feed_filler text { s with mode := .gap, since := s.since + 1 } hw).1 rfl
      · by_cases hsharp : c = Ch.sharp
        · subst hsharp
          rw [Loop.feed_next ((step_none s _).trans ((read_gap hm).trans inGap_sharp))]
          exact (feed_filler text { s with mode := .comment, since := 1 } hw).2 rfl
        · have hnot : ¬ Filler (c :: text) := by
            intro h
            cases h with
            | blank hc _ => exact hblank hc
            | comment _ _ => exact hsharp rfl
            | last _ => exact hsharp rfl
          refine iff_of_false ?_ hnot
          cases hs : s.step none c with
          | done o =>
            rw [Loop.feed_done hs]
            rw [step_none, read_gap hm] at hs
            intro hrc
            rcases (inGap_done hs).2 with ⟨-, ⟨-, h⟩ | ⟨-, h⟩⟩ | ⟨-, -, h⟩ | h <;>
              rw [hrc] at h <;> simp at h
          | next s' =>
            rw [Loop.feed_next hs]
            rw [step_none, read_gap hm] at hs
            have hmode := (inGap_next hs).2
            exact feed_busy (fun he => absurd he hmode)
              (inGap_other (by simpa using hblank) hsharp hs) text
    · intro hm
      have hread : s.read c = .next { s with
          mode := if c = Ch.lf then .gap else .comment, since := s.since + 1 } := by
        simp only [read, hm]
      rw [Loop.feed_next ((step_none s c).trans hread)]
      by_cases hlf : c = Ch.lf
      · subst hlf
        rw [filler_comment_lf]
        exact (feed_filler text { s with mode := .gap, since := s.since + 1 } hw).1 rfl
      · rw [filler_comment_byte hlf]
        rw [if_neg hlf]
        exact (feed_filler text { s with mode := .comment, since := s.since + 1 } hw).2 rfl

end Lexer

/-- A call finds no directive exactly when blanks and comments are all there is. -/
theorem lex_filler_iff (text : List UInt8) :
    (lex none text).1.rc = .ok .fileDone ↔ Filler text :=
  (Lexer.feed_filler text .start rfl).1 rfl

/-! ## 2. The value

What the value should be is said without `cw_atoi` and without `cw_strcmp` (`CoreValue`).  What the
handler takes is said as a function (`readValue`).  The difference between the two is `NulAuto`: a
word may have a NUL in it, and one that is `auto` up to there is taken for `auto`. -/

/-- The values the directive should take: `auto`, or a decimal number that fits. -/
def CoreValue (ncpu : Int) (value : List UInt8) (v : Int) : Prop :=
  (value = autoText ∧ v = ncpu) ∨
    (value ≠ [] ∧ (∀ c ∈ value, isDigit c = true) ∧ decimal value ≤ 2147483647 ∧ v = decimal value)

/-- `auto`, a NUL, and any bytes. -/
def NulAuto (value : List UInt8) : Prop := ∃ x, value = autoText ++ 0 :: x

/-- What the handler sets for a value, if it accepts it. -/
def readValue (ncpu : Int) (value : List UInt8) : Option Int :=
  if cStr (Word.of value).data = autoText then some ncpu
  else if cwAtoi (Word.of value).data (Word.of value).len = cwError then none
  else some (cwAtoi (Word.of value).data (Word.of value).len)

/-- A string is `auto` up to its first NUL. -/
theorem cStr_eq_auto {value : List UInt8} :
    cStr value = autoText ↔ value = autoText ∨ NulAuto value := by
  constructor
  · intro h
    have hsplit : cStr value ++ value.dropWhile (· ≠ 0) = value := List.takeWhile_append_dropWhile
    rw [h] at hsplit
    cases hrest : value.dropWhile (· ≠ 0) with
    | nil =>
      rw [hrest, List.append_nil] at hsplit
      exact Or.inl hsplit.symm
    | cons c x =>
      have hc : c = 0 := by
        have hhead := List.head?_dropWhile_not (· ≠ 0) value
        rw [hrest] at hhead
        simpa using hhead
      rw [hrest, hc] at hsplit
      exact Or.inr ⟨x, hsplit.symm⟩
  · rintro (rfl | ⟨x, rfl⟩)
    · decide
    · have hauto : ∀ c ∈ autoText, decide (c ≠ 0) = true := by simp [autoText]
      rw [cStr, List.takeWhile_append_of_pos hauto]
      simp [autoText]

/-- The handler accepts the values it should, and those that are `auto` up to a NUL. -/
theorem readValue_iff {ncpu v : Int} {value : List UInt8} :
    readValue ncpu value = some v ↔ CoreValue ncpu value v ∨ (NulAuto value ∧ v = ncpu) := by
  have hauto : cStr (Word.of value).data = autoText ↔ value = autoText ∨ NulAuto value := by
    rw [Word.of, cStr_append_zero, cStr_eq_auto]
  have hatoi := cwAtoi_eq value [0]
  -- a byte of `auto` is no digit
  have hdigit : value = autoText ∨ NulAuto value → ¬ ∀ c ∈ value, isDigit c = true := by
    rintro (rfl | ⟨x, rfl⟩) hall
    · exact absurd (hall 97 (by decide)) (by decide)
    · exact absurd (hall 97 (List.mem_append_left _ (by decide))) (by decide)
  unfold readValue CoreValue
  by_cases h : value = autoText ∨ NulAuto value
  · rw [if_pos (hauto.mpr h), Option.some.injEq]
    constructor
    · rintro rfl
      exact h.elim (fun h => Or.inl (Or.inl ⟨h, rfl⟩)) fun h => Or.inr ⟨h, rfl⟩
    · rintro ((⟨-, rfl⟩ | ⟨-, hall, -⟩) | ⟨-, rfl⟩)
      · rfl
      · exact absurd hall (hdigit h)
      · rfl
  · rw [if_neg (fun hc => h (hauto.mp hc))]
    rw [not_or] at h
    simp only [Word.of, hatoi, h, false_and, or_false, false_or]
    by_cases hok : value ≠ [] ∧ (∀ c ∈ value, isDigit c = true) ∧ decimal value ≤ 2147483647
    · rw [if_pos hok, if_neg (by simp only [cwError]; omega), Option.some.injEq]
      exact ⟨fun hv => ⟨hok.1, hok.2.1, hok.2.2, hv.symm⟩, fun hv => hv.2.2.2.symm⟩
    · rw [if_neg hok, if_pos rfl]
      constructor
      · intro hn
        cases hn
      · rintro ⟨h1, h2, h3, -⟩
        exact absurd ⟨h1, h2, h3⟩ hok

/-- A value that is accepted is not `CW_CONF_UNSET`, so the directive cannot be given again. -/
theorem readValue_ne_unset {ncpu v : Int} (hncpu : 1 ≤ ncpu) {value : List UInt8}
    (h : readValue ncpu value = some v) : v ≠ confUnset := by
  unfold confUnset
  rcases readValue_iff.mp h with (⟨-, rfl⟩ | ⟨-, -, -, rfl⟩) | ⟨-, rfl⟩ <;> omega

/-! ## 3. One round

A round on a text with the core module alone: a token is read, and if it is a directive it has to
be the one there is.  Nothing else can succeed, since there is one command, it starts no block, and
nothing closes one in a parameter. -/

section
variable {τ : Type} {S : Sys τ} {ncpu : Int} {p : Nat} {text rest : List UInt8}

/-- The parser is set up for the core module, whose record is at `p`. -/
structure CoreReady (p : Nat) (cf : Cf (Configured τ)) : Prop where
  moduleType : cf.view.moduleType = coreModule
  cmdType : cf.view.cmdType = mainConf
  handler : cf.view.handler = 0
  slot : cf.world.slots cf.view.ctx = p

/-- The system's calls keep the configurations. -/
theorem Sys.configured_keeps (S : Sys τ) (slots : Nat → Nat) (core : Nat → CoreConf) :
    S.configured.Keeps fun w => w.slots = slots ∧ w.core = core :=
  ⟨fun _ h => h, fun _ h => h, fun _ _ h => h, fun _ _ _ _ h => h⟩

theorem Sys.configured_allocates (hS : S.Allocates) : S.configured.Allocates :=
  ⟨fun w => hS.push w.sys, fun n w => hS.data n w.sys⟩

theorem coreTable_names : (coreTable (τ := τ) ncpu).NamesOk := by
  simp [Table.NamesOk, Table.commands, coreTable, cwCoreModule, coreCommands, workerProcessesText]

/-- The directive takes one argument. -/
theorem admitsArgs_take1 (n : Nat) :
    admitsArgs (mainConf ||| directConf ||| confTake1) n = true ↔ n = 2 := by
  by_cases hn : n > confMaxArgs
  · have h8 : n ≠ 2 := by
      unfold confMaxArgs at hn
      omega
    simp [admitsArgs, mainConf, directConf, confTake1, confAny, confFlag, conf1More, conf2More, hn,
      h8]
  · have hle : n ≤ 8 := Nat.not_lt.mp hn
    have hall : ∀ k, k ≤ 8 →
        (admitsArgs (mainConf ||| directConf ||| confTake1) k = true ↔ k = 2) := by
      decide
    exact hall n hle

/-- What the one command fits. -/
theorem coreTable_fits {view : View} (hm : view.moduleType = coreModule)
    (hc : view.cmdType = mainConf) {words : List (List UInt8)} {m : Module (Configured τ)}
    {cmd : Command (Configured τ)} :
    Fits (coreTable ncpu) view words .ok m cmd ↔
      (∃ value, words = [workerProcessesText, value]) ∧ m = cwCoreModule ncpu 0 ∧
        cmd ∈ coreCommands ncpu := by
  constructor
  · rintro ⟨⟨name, tail, rfl, before, after, hall, hmatch, -⟩, -, hcount⟩
    have hmem : (m, cmd) ∈ (coreTable ncpu).commands := by
      rw [hall]
      simp
    simp only [Table.commands, coreTable, cwCoreModule, coreCommands, List.flatMap_cons,
      List.flatMap_nil, Option.getD_some, List.map_cons, List.map_nil, List.append_nil,
      List.mem_singleton, Prod.mk.injEq] at hmem
    obtain ⟨rfl, rfl⟩ := hmem
    have hlen := (admitsArgs_take1 _).mp hcount
    obtain ⟨value, rfl⟩ := List.length_eq_one_iff.mp (by simpa using hlen : tail.length = 1)
    exact ⟨⟨value, by rw [hmatch.name]⟩, rfl, List.mem_singleton_self _⟩
  · rintro ⟨⟨value, rfl⟩, rfl, hcmd⟩
    obtain rfl := List.mem_singleton.mp hcmd
    refine ⟨⟨_, _, rfl, [], [], rfl, ⟨rfl, Or.inr hm.symm, ?_⟩, by simp⟩, ?_, ?_⟩
    · rw [hc]
      show (mainConf ||| directConf ||| confTake1) &&& mainConf ≠ 0
      decide
    · simp +decide
    · exact (admitsArgs_take1 2).mpr rfl

/-- The handler accepts a value once, and sets it. -/
theorem setWorkerProcesses_run {parse : Parser (Configured τ)} {cf cf' : Cf (Configured τ)}
    {name value : List UInt8} (hargs : cf.args = [Word.of name, Word.of value]) :
    (setWorkerProcesses ncpu cf.view cf.args p cf.world).run parse cf = (.ok, cf') ↔
      (cf.world.core p).workerProcesses = confUnset ∧ ∃ v, readValue ncpu value = some v ∧
        cf' = { cf with world := cf.world.setWorkers p v } := by
  have hvalue : cf.args.getD 1 ⟨0, []⟩ = Word.of value := by rw [hargs]; rfl
  unfold setWorkerProcesses readValue
  simp only [hvalue]
  by_cases hunset : (cf.world.core p).workerProcesses = confUnset
  · simp only [hunset, ne_eq, not_true_eq_false, if_false, true_and]
    by_cases hauto : cStr (Word.of value).data = autoText
    · simp only [hauto, if_true, Act.run, Prod.mk.injEq, true_and, Option.some.injEq,
        exists_eq_left']
      exact eq_comm
    · simp only [hauto, if_false, Configured.setWorkers_core]
      by_cases herr : cwAtoi (Word.of value).data (Word.of value).len = cwError
      · simp [herr, Act.run]
      · simp only [herr, if_false, Act.run, Prod.mk.injEq, true_and, Option.some.injEq,
          exists_eq_left']
        exact eq_comm
  · simp [hunset, Act.run]

/-- A directive is dispatched successfully when it is the one directive, not yet given, and has a
value that is accepted. -/
theorem core_dispatch_iff (parse : Parser (Configured τ)) {cf cf' : Cf (Configured τ)}
    (h : CoreReady p cf) {words : List (List UInt8)} (hargs : cf.args = words.map Word.of) :
    dispatch S.configured (coreTable ncpu) parse .ok cf = .next cf' ↔
      ∃ value v, words = [workerProcessesText, value] ∧
        (cf.world.core p).workerProcesses = confUnset ∧ readValue ncpu value = some v ∧
        cf' = { cf with world := cf.world.setWorkers p v } := by
  rw [dispatch_next_iff h.handler, confHandler_ok_iff coreTable_names (Or.inl rfl) hargs]
  have hpointer : confPointer S.configured cf.view (cwCoreModule ncpu 0)
      { name := workerProcessesText, type := mainConf ||| directConf ||| confTake1, conf := 0,
        set := setWorkerProcesses ncpu } cf.world = p := by
    have hdirect : (mainConf ||| directConf ||| confTake1) &&& directConf ≠ 0 := by decide
    rw [confPointer, if_pos hdirect]
    exact h.slot
  constructor
  · rintro ⟨m, cmd, hfits, hrun⟩
    obtain ⟨⟨value, rfl⟩, rfl, hcmd⟩ := (coreTable_fits h.moduleType h.cmdType).mp hfits
    obtain rfl := List.mem_singleton.mp hcmd
    rw [hpointer] at hrun
    obtain ⟨hunset, v, hvalue, hcf⟩ := (setWorkerProcesses_run hargs).mp hrun
    exact ⟨value, v, rfl, hunset, hvalue, hcf⟩
  · rintro ⟨value, v, rfl, hunset, hvalue, hcf⟩
    refine ⟨_, _, (coreTable_fits h.moduleType h.cmdType).mpr
      ⟨⟨value, rfl⟩, rfl, List.mem_singleton_self _⟩, ?_⟩
    rw [hpointer]
    exact (setWorkerProcesses_run hargs).mpr ⟨hunset, v, hvalue, hcf⟩

/-- The parser's state when a token has been read. -/
def Cf.afterToken (S : Sys τ) (cf : Cf (Configured τ)) (conf : ConfFile) : Cf (Configured τ) :=
  { cf with args := (readToken S.configured conf cf.world).args
            conf := some (readToken S.configured conf cf.world).conf
            world := (readToken S.configured conf cf.world).world }

/-- The end of the text, for a parameter: the loop ends here with success. -/
theorem core_round_done {parse : Parser (Configured τ)} {cf cf' : Cf (Configured τ)}
    {conf : ConfFile} (hz : cf.view.handler = 0) (hconf : cf.conf = some conf) :
    parseStep S.configured (coreTable ncpu) parse .param cf = .done (.ok (), cf') ↔
      (readToken S.configured conf cf.world).rc = .ok .fileDone ∧ cf' = cf.afterToken S conf := by
  have hz' : (cf.afterToken S conf).view.handler = 0 := hz
  have hdispatch : dispatch S.configured (coreTable ncpu) parse .ok (cf.afterToken S conf)
      ≠ .done (.ok (), cf') := dispatch_ne_done hz' cf'
  simp only [parseStep, hconf]
  cases hrc : (readToken S.configured conf cf.world).rc with
  | error e => simp
  | ok rc =>
    cases rc with
    | ok => simpa [Cf.afterToken] using hdispatch
    | blockStart => simp
    | blockDone => simp
    | fileDone => simp [Cf.afterToken, eq_comm]

/-- A directive, for a parameter: the loop goes on with the number that it sets. -/
theorem core_round_next {parse : Parser (Configured τ)} {cf cf' : Cf (Configured τ)}
    {conf : ConfFile} (hconf : cf.conf = some conf) :
    parseStep S.configured (coreTable ncpu) parse .param cf = .next cf' ↔
      (readToken S.configured conf cf.world).rc = .ok .ok ∧
        dispatch S.configured (coreTable ncpu) parse .ok (cf.afterToken S conf) = .next cf' := by
  simp only [parseStep, hconf]
  cases hrc : (readToken S.configured conf cf.world).rc with
  | error e => simp
  | ok rc => cases rc <;> simp [Cf.afterToken]

/-! ## 4. At most two rounds

In the first round the value may be set, and in the second it may not; so a text is accepted with
no directive or with one.  `Stands` is what holds before a round: the bytes that are left, and the
number of workers so far. -/

/-- The number of workers configured. -/
def Cf.workers (p : Nat) (cf : Cf (Configured τ)) : Int := (cf.world.core p).workerProcesses

/-- The parser stands before `rest`, with `u` workers configured. -/
structure Stands (S : Sys τ) (p : Nat) (text : List UInt8) (u : Int) (rest : List UInt8)
    (cf : Cf (Configured τ)) : Prop where
  ready : CoreReady p cf
  workers : cf.workers p = u
  conf : ∃ conf, cf.conf = some conf ∧ conf.Holds S.configured (Source.memory text) rest

/-- What one token does: its code and words are those of the lexer, and the configuration is as
before. -/
theorem Stands.token (hS : S.Allocates) {u : Int} {cf : Cf (Configured τ)}
    (h : Stands S p text u rest cf) :
    ∃ conf, cf.conf = some conf ∧ CoreReady p (cf.afterToken S conf) ∧
      (cf.afterToken S conf).workers p = u ∧
      (cf.afterToken S conf).args = (lex none rest).1.words.map Word.of ∧
      (∀ rc, (readToken S.configured conf cf.world).rc = .ok rc ↔
        (lex none rest).1.rc = .ok rc) ∧
      ((lex none rest).1.rc = .ok .ok → ∃ conf', (cf.afterToken S conf).conf = some conf' ∧
        conf'.Holds S.configured (Source.memory text) (lex none rest).2) := by
  obtain ⟨hready, hworkers, conf, hconf, hh⟩ := h
  have hsame := readToken_refines (Sys.configured_allocates hS) hh cf.world
  have hlex : lex (Source.memory text).limit rest = lex none rest := rfl
  rw [hlex] at hsame
  obtain ⟨hslots, hcore⟩ := readToken_keeps
    (S.configured_keeps cf.world.slots cf.world.core) conf (w := cf.world) ⟨rfl, rfl⟩
  refine ⟨conf, hconf, ⟨hready.moduleType, hready.cmdType, hready.handler,
    (congrFun hslots _).trans hready.slot⟩, ?_, hsame.args, hsame.rc.ok_iff, ?_⟩
  · rw [← hworkers]
    exact congrArg CoreConf.workerProcesses (congrFun hcore p)
  · exact fun hrc => ⟨_, rfl, (hsame.conf (by rw [hrc]; simp)).1⟩

section
variable {parse : Parser (Configured τ)} {u v : Int} {cf : Cf (Configured τ)}

/-- The loop ends where blanks and comments are all that is left. -/
theorem Stands.done_iff (hS : S.Allocates) (h : Stands S p text u rest cf) :
    (∃ cf', parseStep S.configured (coreTable ncpu) parse .param cf = .done (.ok (), cf') ∧
      cf'.workers p = v) ↔ Filler rest ∧ v = u := by
  obtain ⟨conf, hconf, -, hworkers, -, hrc, -⟩ := h.token hS
  simp only [core_round_done h.ready.handler hconf, hrc, lex_filler_iff]
  constructor
  · rintro ⟨cf', ⟨hfiller, rfl⟩, hv⟩
    exact ⟨hfiller, hv.symm.trans hworkers⟩
  · rintro ⟨hfiller, rfl⟩
    exact ⟨_, ⟨hfiller, rfl⟩, hworkers⟩

/-- The loop goes on behind a directive that is accepted. -/
theorem Stands.next (hS : S.Allocates) (h : Stands S p text u rest cf) {cf' : Cf (Configured τ)}
    (hstep : parseStep S.configured (coreTable ncpu) parse .param cf = .next cf') :
    ∃ value v rest', lex none rest = (⟨.ok .ok, [workerProcessesText, value]⟩, rest') ∧
      u = confUnset ∧ readValue ncpu value = some v ∧ Stands S p text v rest' cf' := by
  obtain ⟨conf, hconf, hready, hworkers, hargs, hrc, hholds⟩ := h.token hS
  obtain ⟨hok, hdisp⟩ := (core_round_next hconf).mp hstep
  obtain ⟨value, v, hwords, hunset, hvalue, rfl⟩ := (core_dispatch_iff _ hready hargs).mp hdisp
  rw [hrc] at hok
  have hheld := hholds hok
  generalize lex none rest = x at hwords hok hheld ⊢
  obtain ⟨⟨rc, words⟩, rest'⟩ := x
  simp only at hwords hok hheld
  subst hwords hok
  refine ⟨value, v, rest', rfl, hworkers.symm.trans hunset, hvalue, ?_, ?_, hheld⟩
  · exact ⟨hready.moduleType, hready.cmdType, hready.handler, hready.slot⟩
  · simp [Cf.workers]

/-- ...and there is such a step for each. -/
theorem Stands.exists_next (hS : S.Allocates) (h : Stands S p text u rest cf)
    {value rest' : List UInt8} {v : Int}
    (hlex : lex none rest = (⟨.ok .ok, [workerProcessesText, value]⟩, rest'))
    (hunset : u = confUnset) (hvalue : readValue ncpu value = some v) :
    ∃ cf', parseStep S.configured (coreTable ncpu) parse .param cf = .next cf' ∧
      Stands S p text v rest' cf' := by
  obtain ⟨conf, hconf, hready, hworkers, hargs, hrc, -⟩ := h.token hS
  rw [hlex] at hargs
  have hdisp := (core_dispatch_iff (S := S) parse hready hargs).mpr
    ⟨value, v, rfl, hworkers.trans hunset, hvalue, rfl⟩
  have hstep := (core_round_next (S := S) hconf).mpr
    ⟨(hrc .ok).mpr (by rw [hlex]), hdisp⟩
  obtain ⟨value', v', rest'', hlex', -, hvalue', hstands⟩ := h.next hS hstep
  rw [hlex, Prod.mk.injEq, Lexeme.mk.injEq] at hlex'
  obtain ⟨⟨-, hwords⟩, rfl⟩ := hlex'
  obtain rfl : value = value' := by simpa using hwords
  obtain rfl := Option.some.inj (hvalue.symm.trans hvalue')
  exact ⟨_, hstep, hstands⟩

/-- One round of the loop and the rest of it: it accepts at the end of the text, or with a
directive that is accepted and a rest that is. -/
theorem Stands.loop_iff (hS : S.Allocates) (h : Stands S p text u rest cf) (fuel : Nat) :
    (∃ cf', Loop.run (parseStep S.configured (coreTable ncpu) parse .param) (fuel + 1) cf
        = some (.ok (), cf') ∧ cf'.workers p = v) ↔
      (Filler rest ∧ v = u) ∨
        ∃ cf₁, parseStep S.configured (coreTable ncpu) parse .param cf = .next cf₁ ∧
          ∃ cf', Loop.run (parseStep S.configured (coreTable ncpu) parse .param) fuel cf₁
            = some (.ok (), cf') ∧ cf'.workers p = v := by
  rw [← h.done_iff hS]
  cases hstep : parseStep S.configured (coreTable ncpu) parse .param cf with
  | done r => simp [Loop.run_done hstep]
  | next cf₁ => simp [Loop.run_next hstep]

/-- The whole loop: the second round, if there is one, is the last. -/
theorem Stands.run_iff (hS : S.Allocates) (hncpu : 1 ≤ ncpu)
    (h : Stands S p text confUnset rest cf) {fuel : Nat} (hfuel : rest.length < fuel) :
    (∃ cf', Loop.run (parseStep S.configured (coreTable ncpu) parse .param) fuel cf
        = some (.ok (), cf') ∧ cf'.workers p = v) ↔
      (Filler rest ∧ v = confUnset) ∨
        ∃ value rest', lex none rest = (⟨.ok .ok, [workerProcessesText, value]⟩, rest') ∧
          Filler rest' ∧ readValue ncpu value = some v := by
  obtain ⟨fuel, rfl⟩ : ∃ f, fuel = f + 1 := ⟨fuel - 1, by omega⟩
  rw [h.loop_iff hS]
  -- from a place behind the directive
  have hlast : ∀ {v₁ : Int} {rest' : List UInt8} {cf₁ : Cf (Configured τ)} {f : Nat},
      v₁ ≠ confUnset → Stands S p text v₁ rest' cf₁ →
      ((∃ cf', Loop.run (parseStep S.configured (coreTable ncpu) parse .param) (f + 1) cf₁
        = some (.ok (), cf') ∧ cf'.workers p = v) ↔ Filler rest' ∧ v = v₁) := by
    intro v₁ rest' cf₁ f hset hstands
    rw [hstands.loop_iff hS]
    refine or_iff_left ?_
    rintro ⟨cf₂, hstep, -⟩
    obtain ⟨-, -, -, -, hunset, -⟩ := hstands.next hS hstep
    exact hset hunset
  refine or_congr Iff.rfl ?_
  constructor
  · rintro ⟨cf₁, hstep, hrun⟩
    obtain ⟨value, v₁, rest', hlex, -, hvalue, hstands⟩ := h.next hS hstep
    cases fuel with
    | zero =>
      obtain ⟨cf', hrun, -⟩ := hrun
      simp [Loop.run] at hrun
    | succ fuel =>
      obtain ⟨hfiller, rfl⟩ := (hlast (readValue_ne_unset hncpu hvalue) hstands).mp hrun
      exact ⟨value, rest', hlex, hfiller, hvalue⟩
  · rintro ⟨value, rest', hlex, hfiller, hvalue⟩
    obtain ⟨cf₁, hstep, hstands⟩ := h.exists_next hS hlex rfl hvalue
    have hlt : rest'.length < rest.length := by
      rcases lex_ok hlex with ⟨hrc, -⟩ | ⟨hlt, -⟩
      · cases hrc
      · exact hlt
    obtain ⟨fuel, rfl⟩ : ∃ f, fuel = f + 1 := ⟨fuel - 1, by omega⟩
    exact ⟨cf₁, hstep, (hlast (readValue_ne_unset hncpu hvalue) hstands).mpr ⟨hfiller, rfl⟩⟩

end

/-! ## 5. The whole parameter -/

/-- The texts the core module should accept, with the number of workers each configures. -/
inductive CoreText (ncpu : Int) : List UInt8 → Int → Prop
  | none {text : List UInt8} (h : Filler text) : CoreText ncpu text confUnset
  | one {text value rest : List UInt8} {v : Int}
      (hlex : lex none text = (⟨.ok .ok, [workerProcessesText, value]⟩, rest))
      (hrest : Filler rest) (hvalue : CoreValue ncpu value v) : CoreText ncpu text v

/-- The one directive has a value that is `auto` up to a NUL. -/
def NulAutoText (text : List UInt8) : Prop :=
  ∃ value rest, lex none text = (⟨.ok .ok, [workerProcessesText, value]⟩, rest) ∧
    Filler rest ∧ NulAuto value

/-- What the loop accepts, in terms of the grammar: the texts that should be accepted, and those
with a NUL. -/
theorem coreText_or_nul {v : Int} :
    ((Filler text ∧ v = confUnset) ∨
        ∃ value rest, lex none text = (⟨.ok .ok, [workerProcessesText, value]⟩, rest) ∧
          Filler rest ∧ readValue ncpu value = some v) ↔
      CoreText ncpu text v ∨ (NulAutoText text ∧ v = ncpu) := by
  constructor
  · rintro (⟨hfiller, rfl⟩ | ⟨value, rest, hlex, hrest, hvalue⟩)
    · exact Or.inl (.none hfiller)
    · rcases readValue_iff.mp hvalue with hvalue | ⟨hnul, rfl⟩
      · exact Or.inl (.one hlex hrest hvalue)
      · exact Or.inr ⟨⟨value, rest, hlex, hrest, hnul⟩, rfl⟩
  · rintro ((hfiller | ⟨hlex, hrest, hvalue⟩) | ⟨⟨value, rest, hlex, hrest, hnul⟩, rfl⟩)
    · exact Or.inl ⟨hfiller, rfl⟩
    · exact Or.inr ⟨_, _, hlex, hrest, readValue_iff.mpr (Or.inl hvalue)⟩
    · exact Or.inr ⟨value, rest, hlex, hrest, readValue_iff.mpr (Or.inr ⟨hnul, rfl⟩)⟩

/-- What `cw_conf_param` accepts, and the workers it configures: the loop's results, from the state
that it sets up. -/
theorem confParam_core (hS : S.Allocates) (hncpu : 1 ≤ ncpu) {cf : Cf (Configured τ)}
    (hready : CoreReady p cf) (hfresh : cf.workers p = confUnset) {n : Nat} (hn : 0 < n)
    (text : List UInt8) (v : Int) :
    ((confParam S.configured (coreTable ncpu) n text cf).1 = .ok () ∧
      (confParam S.configured (coreTable ncpu) n text cf).2.workers p = v) ↔
      CoreText ncpu text v ∨ (NulAutoText text ∧ v = ncpu) := by
  rw [← coreText_or_nul]
  unfold confParam
  by_cases hnil : text.length = 0
  · rw [if_pos hnil]
    obtain rfl := List.length_eq_zero_iff.mp hnil
    constructor
    · rintro ⟨-, hv⟩
      exact Or.inl ⟨.nil, hv.symm.trans hfresh⟩
    · rintro (⟨-, rfl⟩ | ⟨value, rest, hlex, -⟩)
      · exact ⟨rfl, hfresh⟩
      · cases hlex
  · rw [if_neg hnil]
    obtain ⟨n, rfl⟩ : ∃ d, n = d + 1 := ⟨n - 1, by omega⟩
    have hholds := ConfFile.param_holds S.configured text
    have hstands : Stands S p text confUnset text { cf with conf := some (.param text) } :=
      ⟨⟨hready.moduleType, hready.cmdType, hready.handler, hready.slot⟩, hfresh, _, rfl, hholds⟩
    rw [← hstands.run_iff hS hncpu
      (Nat.lt_succ_self _)]
    have hfd : (ConfFile.param text).file.fd = invalidFile := rfl
    simp only [confParse, hfd, ne_eq, not_true_eq_false, if_false, parseLoop, Option.map_some,
      Option.getD_some, ← hholds.length_eq]
    cases Loop.run (parseStep S.configured (coreTable ncpu)
      (confParse S.configured (coreTable ncpu) n) .param) (text.length + 1)
        { cf with conf := some (.param text) } with
    | none => simp
    | some r =>
      obtain ⟨res, cf'⟩ := r
      simp [Cf.workers]

/-- The code does what the grammar says. -/
structure CoreAgrees (S : Sys τ) (ncpu : Int) (p n : Nat) (text : List UInt8)
    (cf : Cf (Configured τ)) : Prop where
  accepts : (confParam S.configured (coreTable ncpu) n text cf).1 = .ok () ↔
    ∃ v, CoreText ncpu text v
  value : (confParam S.configured (coreTable ncpu) n text cf).1 = .ok () →
    CoreText ncpu text ((confParam S.configured (coreTable ncpu) n text cf).2.workers p)

/-- A text whose value is `auto` up to a NUL is not in the grammar. -/
theorem NulAutoText.not_coreText (h : NulAutoText text) (v : Int) : ¬ CoreText ncpu text v := by
  obtain ⟨value, rest, hlex, -, x, rfl⟩ := h
  rintro (hfiller | ⟨hlex', -, hvalue⟩)
  · have hrc := (lex_filler_iff text).mpr hfiller
    rw [hlex] at hrc
    cases hrc
  · rw [hlex, Prod.mk.injEq, Lexeme.mk.injEq] at hlex'
    obtain ⟨⟨-, hwords⟩, -⟩ := hlex'
    simp only [List.cons.injEq, and_true, true_and] at hwords
    subst hwords
    rcases hvalue with ⟨hauto, -⟩ | ⟨-, hall, -⟩
    · exact absurd (congrArg List.length hauto) (by simp)
    · exact absurd (hall 97 (List.mem_append_left _ (by decide))) (by decide)

/-- **The core module accepts the texts of the grammar**, and configures what they say, for every
text but those whose one directive has a value that is `auto` up to a NUL. -/
theorem coreParam_iff (hS : S.Allocates) (hncpu : 1 ≤ ncpu) {cf : Cf (Configured τ)}
    (hready : CoreReady p cf) {env : Nat} (hfresh : cf.world.core p = .fresh env) {n : Nat}
    (hn : 0 < n) (text : List UInt8) :
    CoreAgrees S ncpu p n text cf ↔ ¬ NulAutoText text := by
  have hunset : cf.workers p = confUnset := by rw [Cf.workers, hfresh]; rfl
  have hiff := confParam_core hS hncpu hready hunset hn text
  constructor
  · rintro ⟨haccepts, -⟩ hnul
    obtain ⟨v, hv⟩ := haccepts.mp ((hiff ncpu).mpr (Or.inr ⟨hnul, rfl⟩)).1
    exact hnul.not_coreText v hv
  · intro hnot
    have hiff' := fun v => (hiff v).trans (or_iff_left fun h => hnot h.1)
    exact ⟨⟨fun h => ⟨_, (hiff' _).mp ⟨h, rfl⟩⟩, fun ⟨v, hv⟩ => ((hiff' v).mpr hv).1⟩,
      fun h => (hiff' _).mp ⟨h, rfl⟩⟩

end

/-- A parser set up for the core module, whose record is at address 1. -/
def sampleCore : Cf (Configured Unit) where
  args := []
  conf := none
  view := { ctx := 8, moduleType := coreModule, cmdType := mainConf, handler := 0 }
  world := { sys := (), slots := fun _ => 1, core := fun _ => .fresh 0 }

/-- The text `worker_processes 12;`. -/
def sampleParam : List UInt8 := workerProcessesText ++ [32, 49, 50, 59]

/-- The statement for `worker_processes 12;`. -/
theorem coreParam_iff_sample :
    CoreAgrees (Sys.plain []) 4 1 1 sampleParam sampleCore ↔ ¬ NulAutoText sampleParam := by
  have hready : CoreReady 1 sampleCore := ⟨rfl, rfl, rfl, rfl⟩
  exact coreParam_iff (Sys.plain_allocates []) (by decide) hready rfl (by decide) _

/-- The text `worker_processes auto`, a NUL, `x;`. -/
def nulAutoParam : List UInt8 := workerProcessesText ++ 32 :: autoText ++ [0, 120, 59]

/-- It is accepted, although its value is not `auto`. -/
theorem nulAutoParam_accepted :
    (confParam (Sys.plain []).configured (coreTable 4) 1 nulAutoParam sampleCore).1 = .ok () ∧
      ∀ v, ¬ CoreText 4 nulAutoParam v := by
  have hnul : NulAutoText nulAutoParam := ⟨autoText ++ [0, 120], [], rfl, .nil, _, rfl⟩
  exact ⟨rfl, hnul.not_coreText⟩

end Capwap
