/-
# Successive calls of the tokenizer

A file is read through a buffer of `CW_CONF_BUFFER` bytes, a parameter from memory.  Call by
call the two yield the same codes, words and lines (`calls_transparent`), until a call reports a
parameter that is too long; this only happens when `CW_CONF_BUFFER` bytes have gone by since
the last item began.

Which files run into that report is found in `Conf/TooLong.lean`: not for their words, when these
are short, but a comment or a run of blanks can be the cause.
-/
import Capwap.Conf.Refine

namespace Capwap

/-! ## 1. A file and the same text in memory

The calls are compared through the lexer.  Each call on the file does what the lexer does under the
limit, each call in memory what it does without one, and the two are the same until the limit
shows.  Since the text left is the same after each call, the comparison goes on from call to
call. -/

section
variable {σ : Type}

/-- `n` successive calls, each with the lines it advanced by.  They go on after an error too, as
the theorem has to. -/
def calls (S : Sys σ) : Nat → ConfFile → σ → List (TokenResult σ × Nat)
  | 0, _, _ => []
  | n + 1, conf, w =>
    let r := readToken S conf w
    (r, r.conf.line - conf.line) :: calls S n r.conf r.world

/-- What a caller sees of a call. -/
def outcome (x : TokenResult σ × Nat) : Int × List Word × Nat := (x.1.code, x.1.args, x.2)

/-- A system in which everything succeeds, and every file has the given content. -/
def Sys.plain (content : List UInt8) : Sys Unit where
  openFile _ w := (3, w)
  fdInfo _ w := ((true, content.length), w)
  alloc _ w := (some 4096, w)
  free _ w := w
  pread _ n off w := (some ((content.drop off).take n), w)
  closeFile _ w := (true, w)
  clearArgs w := w
  arrayPush w := (true, w)
  pnalloc _ w := (true, w)
  load _ _ := 0

theorem Sys.plain_allocates (content : List UInt8) : (Sys.plain content).Allocates :=
  ⟨fun _ => rfl, fun _ _ => rfl⟩

theorem Sys.plain_serves (content : List UInt8) (fd : Int) :
    (Sys.plain content).Serves fd content := fun _ _ _ => rfl

/-- The file has been opened. -/
theorem ConfFile.opened_holds {S : Sys σ} {fd : Int} {content : List UInt8}
    (h : S.Serves fd content) :
    (ConfFile.opened fd content.length).Holds S (Source.file fd content) content :=
  ⟨rfl, rfl, Nat.zero_le _, Nat.le_refl _, rfl, Or.inr ⟨rfl, rfl, Nat.zero_le _, h⟩⟩

/-- The text has been set up in memory. -/
theorem ConfFile.param_holds (S : Sys σ) (text : List UInt8) :
    (ConfFile.param text).Holds S (Source.memory text) text :=
  ⟨rfl, rfl, Nat.le_refl _, Nat.zero_le _, by simp [ConfFile.param, Source.memory],
    Or.inl ⟨rfl, rfl, rfl⟩⟩

/-- In memory the position tells what is left. -/
theorem ConfFile.Holds.pos_eq {S : Sys σ} {text rest : List UInt8} {conf : ConfFile}
    (h : conf.Holds S (Source.memory text) rest) :
    conf.buffer.pos + rest.length = text.length ∧ conf.buffer.bytes = text := by
  rcases h.kind with ⟨-, -, hbytes⟩ | ⟨hlimit, -⟩
  · have hpos := h.pos_le
    have hrest := h.length_eq
    have hsize := h.size_eq
    simp only [ConfFile.unread, hbytes, Source.memory, List.length_nil] at hpos hrest hsize
    exact ⟨by omega, hbytes⟩
  · exact absurd hlimit (by simp [Source.memory])

end

/-- Unless the limit is reported, it makes no difference to the whole call. -/
theorem feed_limit {n : Nat} : ∀ {text : List UInt8} {s : Lexer},
    (Loop.feed (Lexer.step (some n)) Lexer.eof s text).1.rc ≠ .error .tooLong →
    Loop.feed (Lexer.step (some n)) Lexer.eof s text
      = Loop.feed (Lexer.step none) Lexer.eof s text := by
  intro text
  induction text with
  | nil =>
    intro s _
    rfl
  | cons c cs ih =>
    intro s h
    by_cases hs : s.since = n
    · rw [Loop.feed_done (Lexer.step_at (by rw [hs]) c)] at h
      exact absurd rfl h
    · have hstep : s.step (some n) c = s.step none c :=
        (Lexer.step_off (fun he => hs (Option.some.inj he).symm) c).trans (s.step_none c).symm
      cases hnone : s.step none c with
      | done o => rw [Loop.feed_done (hstep.trans hnone), Loop.feed_done hnone]
      | next s' =>
        rw [Loop.feed_next (hstep.trans hnone)] at h ⊢
        rw [Loop.feed_next hnone]
        exact ih h

section
variable {σ τ : Type} {S : Sys σ} {M : Sys τ} {fd : Int} {content text : List UInt8}

/-- Agreeing with one lexeme, two calls return the same code. -/
theorem Agrees.code_eq {src src' : Source} {whole whole' : List UInt8} {r : TokenResult σ}
    {r' : TokenResult τ} {rc : Except LexError Rc} (h : Agrees src whole r.rc rc)
    (h' : Agrees src' whole' r'.rc rc) : r.code = r'.code := by
  unfold TokenResult.code
  generalize r.rc = a at h
  generalize r'.rc = b at h'
  cases h <;> cases h' <;> rfl

/-- The code succeeds when the lexer does, with the same code. -/
theorem Agrees.ok_iff {src : Source} {whole : List UInt8} {a : Except TokenError Rc}
    {b : Except LexError Rc} (h : Agrees src whole a b) (rc : Rc) : a = .ok rc ↔ b = .ok rc := by
  cases h <;> simp

/-- The report of the code is the report of the lexer. -/
theorem Agrees.tooLong_iff {src : Source} {whole : List UInt8} {r : TokenResult σ}
    {rc : Except LexError Rc} (h : Agrees src whole r.rc rc) :
    r.TooLong ↔ rc = .error .tooLong := by
  unfold TokenResult.TooLong
  generalize r.rc = a at h
  cases h <;> simp

/-- One call on the file and one in memory, at the same place of the text: the same outcome, and
the same text left. -/
theorem call_eq (hS : S.Allocates) (hM : M.Allocates) {conf conf' : ConfFile}
    {rest : List UInt8} (h : conf.Holds S (Source.file fd content) rest)
    (h' : conf'.Holds M (Source.memory text) rest) (w : σ) (v : τ)
    (hlong : ¬ (readToken S conf w).TooLong) :
    outcome (readToken S conf w, (readToken S conf w).conf.line - conf.line)
        = outcome (readToken M conf' v, (readToken M conf' v).conf.line - conf'.line) ∧
      ∃ rest', (readToken S conf w).conf.Holds S (Source.file fd content) rest' ∧
        (readToken M conf' v).conf.Holds M (Source.memory text) rest' := by
  have hfile := readToken_refines hS h w
  have hmem := readToken_refines hM h' v
  have hne : (lex (some confBuffer) rest).1.rc ≠ .error .tooLong :=
    fun he => hlong (hfile.rc.tooLong_iff.mpr he)
  have hlex : lex (some confBuffer) rest = lex none rest := feed_limit hne
  have hsrc : lex (Source.file fd content).limit rest = lex none rest := hlex
  have hsrc' : lex (Source.memory text).limit rest = lex none rest := rfl
  rw [hlex] at hne
  rw [hsrc] at hfile
  rw [hsrc'] at hmem
  obtain ⟨hh, hl⟩ := hfile.conf hne
  obtain ⟨hh', hl'⟩ := hmem.conf hne
  refine ⟨?_, _, hh, hh'⟩
  simp only [outcome, Prod.mk.injEq]
  refine ⟨hfile.rc.code_eq hmem.rc, hfile.args.trans hmem.args.symm, ?_⟩
  -- the lines advanced are the LFs consumed
  omega

theorem calls_eq (hS : S.Allocates) (hM : M.Allocates) : ∀ (n : Nat) {conf conf' : ConfFile}
    {rest : List UInt8} (w : σ) (v : τ), conf.Holds S (Source.file fd content) rest →
    conf'.Holds M (Source.memory text) rest → (∀ x ∈ calls S n conf w, ¬ x.1.TooLong) →
    (calls S n conf w).map outcome = (calls M n conf' v).map outcome := by
  intro n
  induction n with
  | zero =>
    intro conf conf' rest w v _ _ _
    rfl
  | succ n ih =>
    intro conf conf' rest w v h h' hlong
    simp only [calls, List.mem_cons, forall_eq_or_imp] at hlong
    obtain ⟨hout, rest', hh, hh'⟩ := call_eq hS hM h h' w v hlong.1
    simp only [calls, List.map_cons, hout]
    rw [ih _ _ hh hh' hlong.2]

/-- A report names `CW_CONF_BUFFER` bytes of the text that follow one another. -/
theorem calls_tooLong (hS : S.Allocates) {src : Source} : ∀ (n : Nat) {conf : ConfFile}
    {rest : List UInt8} (w : σ), conf.Holds S src rest → ∀ x ∈ calls S n conf w,
    ∀ quote kept, x.1.rc = .error (.tooLong quote kept) →
      kept.length = confBuffer ∧ kept <:+: rest := by
  intro n
  induction n with
  | zero =>
    intro conf rest w _ x hx
    simp [calls] at hx
  | succ n ih =>
    intro conf rest w h x hx quote kept hrc
    have hsame := readToken_refines hS h w
    simp only [calls, List.mem_cons] at hx
    rcases hx with rfl | hx
    · have hag := hsame.rc
      simp only at hrc
      rw [hrc] at hag
      generalize (lex src.limit rest).1.rc = b at hag
      cases hag with
      | tooLong quote kept before after hlen hwhole => exact ⟨hlen, before, after, hwhole.symm⟩
    · obtain ⟨rest', hh, hsuf⟩ := hsame.held
      obtain ⟨hlen, hin⟩ := ih _ hh x hx quote kept hrc
      exact ⟨hlen, hin.trans hsuf.isInfix⟩

/-- The buffer is transparent.  For every content, the successive calls on a file return, call by
call, what the calls on the same text in memory return, as long as none reports a parameter that
is too long; and a report means that `CW_CONF_BUFFER` bytes stand between `start` and `pos`. -/
theorem calls_transparent (hS : S.Allocates) (hM : M.Allocates) (hserves : S.Serves fd content)
    (n : Nat) (w : σ) (v : τ) :
    ((∀ x ∈ calls S n (.opened fd content.length) w, ¬ x.1.TooLong) →
      (calls S n (.opened fd content.length) w).map outcome
        = (calls M n (.param content) v).map outcome) ∧
    ∀ x ∈ calls S n (.opened fd content.length) w, ∀ quote kept,
      x.1.rc = .error (.tooLong quote kept) → kept.length = confBuffer ∧ kept <:+: content :=
  ⟨calls_eq hS hM n w v (ConfFile.opened_holds hserves) (ConfFile.param_holds M content),
    calls_tooLong hS n w (ConfFile.opened_holds hserves)⟩

end

/-- A file that one call consumes makes no report. -/
theorem calls_two_quiet {σ : Type} {S : Sys σ} {fd : Int} {content : List UInt8}
    (hS : S.Allocates) (hserves : S.Serves fd content) (w : σ) {rc : Rc}
    (hrc : (lex (some confBuffer) content).1.rc = .ok rc)
    (hrest : (lex (some confBuffer) content).2 = []) :
    ∀ x ∈ calls S 2 (.opened fd content.length) w, ¬ x.1.TooLong := by
  have hfirst := readToken_refines hS (ConfFile.opened_holds hserves) w
  have hlimit : (Source.file fd content).limit = some confBuffer := rfl
  rw [hlimit] at hfirst
  obtain ⟨hnext, -⟩ := hfirst.conf (by rw [hrc]; simp)
  rw [hrest] at hnext
  have hsecond := readToken_refines hS hnext (readToken S (.opened fd content.length) w).world
  intro x hx hlong
  simp only [calls, List.mem_cons, List.not_mem_nil, or_false] at hx
  rcases hx with rfl | rfl
  · have htooLong := hfirst.rc.tooLong_iff.mp hlong
    rw [hrc] at htooLong
    cases htooLong
  · cases hsecond.rc.tooLong_iff.mp hlong

/-- A directive behind so many blanks that its first word lies across the end of the buffer. -/
def crossing : List UInt8 := List.replicate 4090 Ch.space ++ "worker_processes 2;".toUTF8.toList

theorem crossing_lex : (lex (some confBuffer) crossing).1.rc = .ok .ok ∧
    (lex (some confBuffer) crossing).2 = [] := by
  decide +kernel

/-- The buffer is filled a second time within that word, and the calls on the file return what those
on the text do: one directive, and the end. -/
theorem calls_transparent_sample :
    (∀ x ∈ calls (Sys.plain crossing) 2 (.opened 3 crossing.length) (), ¬ x.1.TooLong) ∧
      (calls (Sys.plain crossing) 2 (.opened 3 crossing.length) ()).map outcome
        = (calls (Sys.plain []) 2 (.param crossing) ()).map outcome := by
  have hS := Sys.plain_allocates crossing
  have hserves := Sys.plain_serves crossing 3
  have hquiet := calls_two_quiet hS hserves () crossing_lex.1 crossing_lex.2
  exact ⟨hquiet, (calls_transparent hS (Sys.plain_allocates []) hserves 2 () ()).1 hquiet⟩

end Capwap
