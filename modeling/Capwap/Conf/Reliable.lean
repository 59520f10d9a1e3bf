/-
# What the parser may rely on

What the results of a call of `cw_conf_read_token` say about the text, for every text, every call
and every outcome of the reads and allocations on the way (`readToken_reliable`): a code comes with
the words and the last byte that it promises, the end of the file is reported only behind blanks
and comments, and a text that ends inside a directive is an error.

A call in which an allocation or a read fails returns `CW_ERROR`.  Any other call goes as if nothing
could fail (`readToken_perfect`), and then it yields what the lexer yields (`lex_results`).  Where a
call fails a line says why, unless it was memory that ran out (`readToken_says`).

For the parser this means that `cw_conf_handler` finds a first word and looks up
`argument_number` inside the array (`argumentIndex`).
-/
import Capwap.Conf.Bounds
import Capwap.Conf.CoreText
import Capwap.Conf.Heads

namespace Capwap

/-! ## 1. The results of the lexer

The lexer has four ways to end a call: at `;` or `{` with words read, at `}` with none, at the end
of the text with none, and with an error.  `Results` says for each what the text was up to there.
Behind a backslash, in a comment and between quotes, the three bytes are bytes like any other. -/

namespace Lexer

/-- Where `;`, `{` and `}` end a directive or a block: not in a comment, not between quotes, and not
behind a backslash. -/
def Plain (s : Lexer) : Prop :=
  s.mode = .gap ∨ s.mode = .closed ∨ ∃ var, s.mode = .word .bare var false

/-- A call ends at a plain place, with a `}` only between words. -/
theorem read_plain {s : Lexer} {c : UInt8} {o : Lexeme} (h : s.read c = .done o) :
    s.Plain ∧ (o.rc = .ok .blockDone → s.mode = .gap) := by
  unfold read at h
  split at h
  · rename_i hm
    exact ⟨Or.inl hm, fun _ => hm⟩
  · simp at h
  · rename_i hm
    refine ⟨Or.inr (Or.inl hm), fun hrc => ?_⟩
    obtain ⟨-, ⟨-, h1⟩ | ⟨-, h1⟩ | h1⟩ := inClosed_done h <;> rw [hrc] at h1 <;> simp at h1
  · simp at h
  · rename_i q var hm
    obtain ⟨-, rfl, hc⟩ := inWord_done h
    refine ⟨Or.inr (Or.inr ⟨var, hm⟩), fun hrc => ?_⟩
    rcases hc with ⟨-, h1⟩ | ⟨-, h1⟩ <;> rw [hrc] at h1 <;> simp at h1

end Lexer

/-- The lexer stands at `s` behind `pre`, in which no call ends. -/
def StandsAt (pre : List UInt8) (s : Lexer) : Prop :=
  Loop.advance (Lexer.step none) .start pre = some s

/-- The results of a call on a text: the lexeme, and the bytes left.  Where a call ends at a byte,
it says which, and how the lexer stood before it. -/
inductive Results (text : List UInt8) : Lexeme × List UInt8 → Prop
  | terminated {pre rest : List UInt8} {s : Lexer} {o : Lexeme} {c : UInt8} {rc : Rc}
      (htext : text = pre ++ c :: rest) (hs : StandsAt pre s) (hplain : s.Plain)
      (hc : (c = Ch.semicolon ∧ rc = .ok) ∨ (c = Ch.lbrace ∧ rc = .blockStart))
      (hrc : o.rc = .ok rc) (hwords : o.words ≠ []) : Results text (o, rest)
  | blockDone {pre rest : List UInt8} {s : Lexer} {o : Lexeme}
      (htext : text = pre ++ Ch.rbrace :: rest) (hs : StandsAt pre s) (hmode : s.mode = .gap)
      (hrc : o.rc = .ok .blockDone) (hwords : o.words = []) : Results text (o, rest)
  | fileDone {o : Lexeme} (hfill : Filler text) (hrc : o.rc = .ok .fileDone)
      (hwords : o.words = []) : Results text (o, [])
  | failed {o : Lexeme} {e : LexError} (rest : List UInt8) (hrc : o.rc = .error e) :
      Results text (o, rest)

theorem lex_results (text : List UInt8) : Results text (lex none text) := by
  have hfill := lex_filler_iff text
  unfold lex at hfill ⊢
  rcases Loop.feed_cases (Lexer.step none) Lexer.eof text .start with
    ⟨s, ha, hf⟩ | ⟨pre, c, rest, s, o, rfl, ha, hd, hf⟩
  · rw [hf] at hfill ⊢
    by_cases hend : s.words = [] ∧ (s.mode = .gap ∨ s.mode = .comment)
    · have hrc : s.eof.rc = .ok .fileDone := if_pos hend
      exact .fileDone (hfill.mp hrc) hrc hend.1
    · exact .failed [] (if_neg hend)
  · rw [hf]
    have hok : s.Ok := Loop.advance_invariant (fun t t' d _ hs => by
      rw [Lexer.step_none] at hs
      exact (Lexer.read_next hs).2) Lexer.start_ok ha
    rw [Lexer.step_none] at hd
    obtain ⟨hplain, hgap⟩ := Lexer.read_plain hd
    rcases Lexer.read_done hok hd with ⟨hwords, ⟨rfl, hrc⟩ | ⟨rfl, hrc⟩⟩ | ⟨hwords, rfl, hrc⟩ | hrc
    · exact .terminated rfl ha hplain (Or.inl ⟨rfl, rfl⟩) hrc hwords
    · exact .terminated rfl ha hplain (Or.inr ⟨rfl, rfl⟩) hrc hwords
    · exact .blockDone rfl ha (hgap hrc) hrc hwords
    · exact .failed rest hrc

/-- Under a limit on the length of a word a call has the same results, or the limit is reported. -/
theorem lex_limit (limit : Option Nat) (text : List UInt8) :
    lex limit text = lex none text ∨ (lex limit text).1.rc = .error .tooLong := by
  cases limit with
  | none => exact Or.inl rfl
  | some n =>
    by_cases h : (lex (some n) text).1.rc = .error .tooLong
    · exact Or.inr h
    · exact Or.inl (feed_limit h)

/-- A text that ends inside a directive: with a word begun or words read, and no byte on the way
that ends the call. -/
def EndsInside (text : List UInt8) : Prop :=
  ∃ s, StandsAt text s ∧ (s.words ≠ [] ∨ s.mode = .closed ∨ ∃ q var esc, s.mode = .word q var esc)

theorem lex_inside {text : List UInt8} (h : EndsInside text) :
    (lex none text).1.rc = .error .unfinished := by
  obtain ⟨s, hs, hin⟩ := h
  have hfeed : lex none text = (s.eof, []) := by
    have hadvance : Loop.feed (Lexer.step none) Lexer.eof .start (text ++ []) = _ :=
      Loop.feed_advance [] hs
    rwa [List.append_nil] at hadvance
  rw [hfeed]
  refine if_neg ?_
  rintro ⟨hw, hm⟩
  rcases hin with hne | hc | ⟨q, var, esc, hq⟩
  · exact hne hw
  · rw [hc] at hm
    simp at hm
  · rw [hq] at hm
    simp at hm

/-! ## 2. Calls in which nothing fails

A read or an allocation that fails ends the call at once with `CW_ERROR`, so a call that returns a
code is one in which none did.  To say what it returned, it is compared with a call under a system
that cannot fail, `Sys.perfect`, and about that system the lexer's theorem says everything.  A read
that is too short is such a failure too: `cw_read_file` was asked for bytes the file has. -/

section
variable {σ : Type}

/-- What reads of a file return are bytes of it: those asked for, or fewer. -/
def Sys.Supplies (S : Sys σ) (fd : Int) (content : List UInt8) : Prop :=
  ∀ n off w bs, (S.pread fd n off w).1 = some bs → bs <+: (content.drop off).take n

/-- The system, but for its failures: a read returns the bytes of the file that were asked for, and
there is always memory. -/
def Sys.perfect (S : Sys σ) (content : List UInt8) : Sys σ :=
  { S with
    arrayPush := fun w => (true, (S.arrayPush w).2)
    pnalloc := fun n w => (true, (S.pnalloc n w).2)
    pread := fun fd n off w => (some ((content.drop off).take n), (S.pread fd n off w).2) }

/-- Errors that say nothing about the text. -/
inductive TokenError.OfSystem : TokenError → Prop
  | readFailed : OfSystem .readFailed
  | readShort (n size : Nat) : OfSystem (.readShort n size)
  | noElement : OfSystem .noElement
  | noData : OfSystem .noData

/-- A call that failed for such a reason. -/
def TokenResult.Failed (r : TokenResult σ) : Prop := ∃ e, r.rc = .error e ∧ e.OfSystem

/-- A file, or a text in memory, in order: `content` is the file's. -/
structure ConfFile.Stands (S : Sys σ) (content : List UInt8) (conf : ConfFile) : Prop
    extends conf.Ok where
  size_eq : conf.file.size = content.length
  supplies : content = [] ∨ S.Supplies conf.file.fd content

/-- The text still to come: the unread bytes of the buffer, then those of the file behind its
offset. -/
def ConfFile.rest (content : List UInt8) (conf : ConfFile) : List UInt8 :=
  conf.buffer.bytes.drop conf.buffer.pos ++ content.drop conf.file.offset

variable {S : Sys σ} {content : List UInt8} {conf : ConfFile} {t t' : Tok σ}

theorem ConfFile.Stands.opened {fd : Int} (h : S.Supplies fd content) :
    (ConfFile.opened fd content.length).Stands S content :=
  ⟨.opened _ _, rfl, Or.inr h⟩

theorem ConfFile.Stands.param (S : Sys σ) (data : List UInt8) :
    (ConfFile.param data).Stands S [] := ⟨.param _, rfl, Or.inl rfl⟩

theorem Sys.perfect_allocates (S : Sys σ) (content : List UInt8) :
    (S.perfect content).Allocates := ⟨fun _ => rfl, fun _ _ => rfl⟩

/-- Without failures, it is a text held. -/
theorem ConfFile.Stands.holds (h : conf.Stands S content) :
    ∃ src, src.content = content ∧ conf.Holds (S.perfect content) src (conf.rest content) := by
  have hsize := h.size_eq
  have hoffset := h.offset_le
  cases content with
  | nil =>
    exact ⟨⟨none, [], conf.file.fd, conf.buffer.bytes⟩, rfl, rfl, hsize,
      by simpa [hsize] using hoffset,
      h.pos_le, rfl, Or.inl ⟨rfl, rfl, rfl⟩⟩
  | cons c cs =>
    have hcap : conf.buffer.cap = confBuffer := by
      refine h.room.resolve_left ?_
      rw [hsize]
      simp
    refine ⟨.file conf.file.fd (c :: cs), rfl, rfl, hsize, hsize ▸ hoffset, h.pos_le, rfl,
      Or.inr ⟨rfl, hcap, hcap ▸ h.last_le, ?_⟩⟩
    exact fun _ _ _ => rfl

/-- A refill that does not fail is what it would be: a read of the right length has the bytes of
the file. -/
theorem refill_perfect (h : content = [] ∨ S.Supplies t.conf.file.fd content)
    (hsize : t.conf.file.size = content.length) :
    refill (S.perfect content) t = refill S t ∨ ∃ r, refill S t = .done r ∧ r.Failed := by
  unfold refill readFile
  by_cases hge : t.conf.buffer.pos ≥ t.conf.buffer.bytes.length
  · rw [if_pos hge, if_pos hge]
    by_cases hoff : t.conf.file.offset ≥ t.conf.file.size
    · rw [if_pos hoff, if_pos hoff]
      exact Or.inl rfl
    · rw [if_neg hoff, if_neg hoff]
      by_cases hfull : t.conf.buffer.pos - t.start = confBuffer
      · simp only [if_pos hfull]
        exact Or.inl trivial
      · simp only [if_neg hfull]
        generalize (if t.conf.file.size - t.conf.file.offset
            > t.conf.buffer.cap - (t.conf.buffer.pos - t.start)
            then t.conf.buffer.cap - (t.conf.buffer.pos - t.start)
            else t.conf.file.size - t.conf.file.offset) = n
        have hsupplies : S.Supplies t.conf.file.fd content := by
          refine h.resolve_left ?_
          rintro rfl
          exact hoff (by simp [hsize])
        simp only [Sys.perfect]
        cases hread : S.pread t.conf.file.fd n t.conf.file.offset t.world with
        | mk ans w =>
          cases ans with
          | none => exact Or.inr ⟨_, rfl, _, rfl, .readFailed⟩
          | some bs =>
            by_cases hlen : bs.length = n
            · -- as many bytes as were asked for: those of the file
              have hpre := hsupplies n t.conf.file.offset t.world bs (by rw [hread])
              have hbs : bs = (content.drop t.conf.file.offset).take n := by
                refine hpre.eq_of_length ?_
                have hle := hpre.length_le
                rw [List.length_take] at hle ⊢
                omega
              exact Or.inl (by rw [← hbs])
            · simp only [ne_eq, hlen, not_false_eq_true, if_true]
              exact Or.inr ⟨_, rfl, _, rfl, .readShort _ _⟩
  · rw [if_neg hge, if_neg hge]
    exact Or.inl rfl

/-- A word that is pushed without failures is what it would be: the only way in which memory
matters is that there is some. -/
theorem pushWord_perfect (S : Sys σ) (content : List UInt8) (t : Tok σ) (stop : Nat) (c : UInt8) :
    pushWord (S.perfect content) t stop c = pushWord S t stop c ∨
      ∃ r, pushWord S t stop c = .done r ∧ r.Failed := by
  unfold pushWord
  cases hpush : S.arrayPush t.world with
  | mk ok w =>
    cases ok with
    | false => exact Or.inr ⟨_, rfl, _, rfl, .noElement⟩
    | true =>
      simp only [Sys.perfect, hpush]
      cases hdata : S.pnalloc (stop - t.start + 1) w with
      | mk ok' w' =>
        cases ok' with
        | false => exact Or.inr ⟨_, rfl, _, rfl, .noData⟩
        | true => exact Or.inl rfl

theorem scan_perfect (S : Sys σ) (content : List UInt8) (t : Tok σ) :
    scan (S.perfect content) t = scan S t ∨ ∃ r, scan S t = .done r ∧ r.Failed := by
  cases hc : t.conf.buffer.bytes[t.conf.buffer.pos]? with
  | none =>
    refine Or.inl ?_
    unfold scan
    simp only [hc]
  | some c =>
    obtain ⟨f, mv, hb⟩ : ∃ f mv, scanByte t.flags t.args.length c = (f, mv) := ⟨_, _, rfl⟩
    rw [scan_eq (S.perfect content) hc hb, scan_eq S hc hb]
    cases mv with
    | go => exact Or.inl rfl
    | mark skip => exact Or.inl rfl
    | word => exact pushWord_perfect S content _ _ c
    | ret rc => exact Or.inl rfl
    | fail => exact Or.inl rfl

theorem tokenStep_perfect (h : content = [] ∨ S.Supplies t.conf.file.fd content)
    (hsize : t.conf.file.size = content.length) :
    tokenStep (S.perfect content) t = tokenStep S t ∨
      ∃ r, tokenStep S t = .done r ∧ r.Failed := by
  unfold tokenStep
  rcases refill_perfect h hsize with heq | ⟨r, hr, hfailed⟩
  · rw [heq]
    cases refill S t with
    | done r => exact Or.inl rfl
    | next t' => exact scan_perfect S content t'
  · rw [hr]
    exact Or.inr ⟨r, rfl, hfailed⟩

/-- What follows a byte does not touch the file. -/
theorem scan_file (S : Sys σ) (t : Tok σ) :
    (∀ t', scan S t = .next t' → t'.conf.file = t.conf.file) ∧
      ∀ r, scan S t = .done r → r.conf.file = t.conf.file := by
  cases hc : t.conf.buffer.bytes[t.conf.buffer.pos]? with
  | none =>
    have hscan : scan S t = t.fail .overrun := by
      unfold scan
      simp only [hc]
    rw [hscan]
    refine ⟨by simp [Tok.fail], ?_⟩
    rintro _ ⟨⟩
    rfl
  | some c =>
    obtain ⟨f, mv, hb⟩ : ∃ f mv, scanByte t.flags t.args.length c = (f, mv) := ⟨_, _, rfl⟩
    rw [scan_eq S hc hb]
    obtain ⟨hnext, hdone⟩ := Tok.after_conf S t c f mv
    constructor
    · intro t' hs
      rw [hnext t' hs]
      rfl
    · intro r hs
      rw [hdone r hs]
      rfl

/-- No round changes the descriptor or the size. -/
theorem tokenStep_file (S : Sys σ) (t : Tok σ) :
    (∀ t', tokenStep S t = .next t' →
      t'.conf.file.fd = t.conf.file.fd ∧ t'.conf.file.size = t.conf.file.size) ∧
    ∀ r, tokenStep S t = .done r →
      r.conf.file.fd = t.conf.file.fd ∧ r.conf.file.size = t.conf.file.size := by
  have href := refill_refills S t
  unfold tokenStep
  cases hr : refill S t with
  | done r =>
    rw [hr] at href
    refine ⟨by simp, ?_⟩
    rintro _ ⟨⟩
    cases href with
    | fileDone _ _ _ _ => exact ⟨rfl, rfl⟩
    | unfinished _ _ _ => exact ⟨rfl, rfl⟩
    | tooLong _ _ => exact ⟨rfl, rfl⟩
    | readFailed _ _ => exact ⟨rfl, rfl⟩
    | readShort _ _ _ => exact ⟨rfl, rfl⟩
  | next t₁ =>
    rw [hr] at href
    have hsame : t₁.conf.file.fd = t.conf.file.fd ∧ t₁.conf.file.size = t.conf.file.size := by
      cases href with
      | inside _ => exact ⟨rfl, rfl⟩
      | filled _ _ _ => exact ⟨rfl, rfl⟩
    obtain ⟨hnext, hdone⟩ := scan_file S t₁
    exact ⟨fun t' hs => (hnext t' hs) ▸ hsame, fun r hs => (hdone r hs) ▸ hsame⟩

/-- A call that does not fail goes as if nothing could fail.  The two calls are run side by side,
and each round of the one is that of the other, or it is the last and has failed. -/
theorem readToken_perfect (h : conf.Stands S content) (w : σ) :
    readToken (S.perfect content) conf w = readToken S conf w ∨ (readToken S conf w).Failed := by
  have hrun := @Loop.run_unless _ _ (tokenStep S) (tokenStep (S.perfect content))
    (I := fun t : Tok σ => t.conf.file.fd = conf.file.fd ∧ t.conf.file.size = conf.file.size)
    (P := TokenResult.Failed)
    (fun t t' ht hs => by
      obtain ⟨hfd, hsize⟩ := (tokenStep_file S t).1 t' hs
      exact ⟨hfd.trans ht.1, hsize.trans ht.2⟩)
    (fun t ht => tokenStep_perfect (ht.1 ▸ h.supplies) (ht.2.trans h.size_eq))
    (a := Tok.init S conf w) ⟨rfl, rfl⟩ (conf.unread + 1)
  unfold readToken
  rcases hrun with heq | ⟨r, hr, hfailed⟩
  · have hinit : Tok.init (S.perfect content) conf w = Tok.init S conf w := rfl
    rw [hinit, heq]
    exact Or.inl rfl
  · rw [hr]
    exact Or.inr hfailed

/-- A call leaves the file, or the text, in order, whatever it returns: the next call is one that
all this applies to. -/
theorem readToken_stands (hS : S.ReadsWithin) (h : conf.Stands S content) (w : σ) :
    (readToken S conf w).conf.Stands S content := by
  have hfile : (readToken S conf w).conf.file.fd = conf.file.fd ∧
      (readToken S conf w).conf.file.size = conf.file.size := by
    refine Loop.run_invariant
      (I := fun t : Tok σ => t.conf.file.fd = conf.file.fd ∧ t.conf.file.size = conf.file.size)
      (P := fun r : TokenResult σ => r.conf.file.fd = conf.file.fd ∧
        r.conf.file.size = conf.file.size) ?_ ?_ ⟨rfl, rfl⟩ (readToken_ends h.toOk S w)
    · intro t t' ht hs
      obtain ⟨hfd, hsize⟩ := (tokenStep_file S t).1 t' hs
      exact ⟨hfd.trans ht.1, hsize.trans ht.2⟩
    · intro t r ht hs
      obtain ⟨hfd, hsize⟩ := (tokenStep_file S t).2 r hs
      exact ⟨hfd.trans ht.1, hsize.trans ht.2⟩
  refine ⟨(readToken_inOrder hS h.toOk w).1, hfile.2.trans h.size_eq, ?_⟩
  rw [hfile.1]
  exact h.supplies

/-- A call that returns a code yields what the lexer yields on the text still to come. -/
theorem readToken_results (h : conf.Stands S content) {w : σ} {rc : Rc}
    (hrc : (readToken S conf w).rc = .ok rc) :
    (lex none (conf.rest content)).1.rc = .ok rc ∧
      (readToken S conf w).args = (lex none (conf.rest content)).1.words.map Word.of ∧
      (readToken S conf w).conf.rest content = (lex none (conf.rest content)).2 := by
  have hperfect : readToken (S.perfect content) conf w = readToken S conf w := by
    refine (readToken_perfect h w).resolve_right ?_
    rintro ⟨e, he, -⟩
    rw [hrc] at he
    cases he
  obtain ⟨src, hsrc, hholds⟩ := h.holds
  have hsame := readToken_refines (S.perfect_allocates content) hholds w
  rw [hperfect] at hsame
  have hlexrc := (hsame.rc.ok_iff rc).mp hrc
  have hlex : lex src.limit (conf.rest content) = lex none (conf.rest content) := by
    refine (lex_limit src.limit (conf.rest content)).resolve_right ?_
    rw [hlexrc]
    simp
  rw [hlex] at hsame hlexrc
  obtain ⟨hheld, -⟩ := hsame.conf (by rw [hlexrc]; simp)
  refine ⟨hlexrc, hsame.args, ?_⟩
  rw [hheld.rest_eq, hsrc]
  rfl

/-- **A call that fails says why**, in either build: it has logged a line, but where there was no
memory, and where `cw_read_file` failed and logged one itself. -/
theorem readToken_says (h : conf.Stands S content) {w : σ} {e : TokenError}
    (he : (readToken S conf w).rc = .error e) (havePread : Bool) :
    (e.format havePread).isSome ∨ e = .readFailed ∨ e = .noElement ∨ e = .noData := by
  rcases readToken_perfect h w with hperfect | ⟨e', he', hsys⟩
  · -- an error about the text
    obtain ⟨src, -, hholds⟩ := h.holds
    have hagrees := (readToken_refines (S.perfect_allocates content) hholds w).rc
    rw [hperfect, he] at hagrees
    generalize (lex src.limit (conf.rest content)).1.rc = rc at hagrees
    cases hagrees with
    | unexpected ch => exact Or.inl rfl
    | unfinished => cases src.fd == invalidFile <;> exact Or.inl rfl
    | tooLong quote kept before rest hlen hwhole => cases quote <;> exact Or.inl rfl
  · obtain rfl := Except.error.inj (he.symm.trans he')
    cases hsys with
    | readFailed => exact Or.inr (Or.inl rfl)
    | readShort n size => exact Or.inl rfl
    | noElement => exact Or.inr (Or.inr (Or.inl rfl))
    | noData => exact Or.inr (Or.inr (Or.inr rfl))

/-! ## 3. What the results mean

`cw_conf_handler` takes the first word as the name, and looks `cf->args->nelts - 1` up in
`argument_number`.  It has a test for too many words, and none for too few.  That there is a word
is for the tokenizer to guarantee: with `;` and with `{` there is. -/

/-- The index into `argument_number`, when `cw_conf_handler` looks it up; `n` is
`cf->args->nelts`. -/
def argumentIndex (type n : Nat) : Option Int :=
  if type &&& confAny ≠ 0 then none
  else if type &&& confFlag ≠ 0 then none
  else if type &&& conf1More ≠ 0 then none
  else if type &&& conf2More ≠ 0 then none
  else if n > confMaxArgs then none
  else some ((n : Int) - 1)

/-- Where it is looked up, it decides whether the number of words is right: the code's test against
`argument_number` is the one that `admitsArgs` makes. -/
theorem argumentIndex_admits {type n : Nat} {i : Int} (h : argumentIndex type n = some i) :
    i = (n : Int) - 1 ∧ n ≤ confMaxArgs ∧
      admitsArgs type n = decide (type &&& argumentNumber.getD (n - 1) 0 ≠ 0) := by
  unfold argumentIndex at h
  unfold admitsArgs
  split_ifs at h ⊢ with h1 h2 h3 h4 h5
  obtain rfl := Option.some.inj h
  exact ⟨rfl, by omega, rfl⟩

/-- With a first word, `cw_conf_handler` does not miss it.  It is called with words by the codes
`CW_OK` and `CW_CONF_BLOCK_START` only. -/
theorem confHandler_named (T : Table σ) (parse : Parser σ) (rc : Rc) {cf : Cf σ} {name : Word}
    {rest : List Word} (hargs : cf.args = name :: rest) :
    (confHandler S T parse rc cf).1 ≠ .error .noName := by
  unfold confHandler
  simp only [hargs]
  split
  · simp
  · simp
  · split_ifs
    · simp
    · simp
    · split <;> simp
    · simp

/-- What the parser relies on in a call of `cw_conf_read_token`. -/
structure Reliable (S : Sys σ) (content : List UInt8) (conf : ConfFile) (w : σ) : Prop where
  /-- a directive has a word, and ends at a plain `;` or `{` -/
  terminated : ∀ rc, (readToken S conf w).rc = .ok rc → rc = .ok ∨ rc = .blockStart →
    (readToken S conf w).args ≠ [] ∧
      ∃ pre s, conf.rest content = pre ++ (if rc = .ok then Ch.semicolon else Ch.lbrace)
        :: (readToken S conf w).conf.rest content ∧ StandsAt pre s ∧ s.Plain
  /-- the end of a block is a `}` between words, with no word read -/
  blockDone : (readToken S conf w).rc = .ok .blockDone →
    (readToken S conf w).args = [] ∧
      ∃ pre s, conf.rest content = pre ++ Ch.rbrace :: (readToken S conf w).conf.rest content ∧
        StandsAt pre s ∧ s.mode = .gap
  /-- the end of the text is behind blanks and comments -/
  fileDone : (readToken S conf w).rc = .ok .fileDone →
    (readToken S conf w).args = [] ∧ Filler (conf.rest content) ∧
      (readToken S conf w).conf.rest content = []
  /-- a text that ends inside a directive is an error -/
  inside : EndsInside (conf.rest content) → ∃ e, (readToken S conf w).rc = .error e
  /-- when `cw_conf_handler` is called, there is a first word for it to read, and the index into
  `argument_number` is between 0 and 7, whatever the table and the command's type are -/
  handler : ∀ rc, (readToken S conf w).rc = .ok rc → rc = .ok ∨ rc = .blockStart →
    (∀ (T : Table σ) (parse : Parser σ) (cf : Cf σ),
      (confHandler S T parse rc (cf.took (readToken S conf w))).1 ≠ .error .noName) ∧
      ∀ type i, argumentIndex type (readToken S conf w).args.length = some i → 0 ≤ i ∧ i ≤ 7
  /-- the next call is such a call again -/
  stands : (readToken S conf w).conf.Stands S content

/-- **What a call returns can be relied on**: for every text, wherever in it the call begins, and
however the reads and allocations turn out.  The next call is one of which the same is true. -/
theorem readToken_reliable (hS : S.ReadsWithin) (h : conf.Stands S content) (w : σ) :
    Reliable S content conf w := by
  have hterminated : ∀ rc, (readToken S conf w).rc = .ok rc → rc = .ok ∨ rc = .blockStart →
      (readToken S conf w).args ≠ [] ∧
        ∃ pre s, conf.rest content = pre ++ (if rc = .ok then Ch.semicolon else Ch.lbrace)
          :: (readToken S conf w).conf.rest content ∧ StandsAt pre s ∧ s.Plain := by
    intro rc hrc hor
    obtain ⟨hlex, hargs, hrest⟩ := readToken_results h hrc
    have hres := lex_results (conf.rest content)
    rw [hargs, hrest]
    generalize lex none (conf.rest content) = x at hlex hres ⊢
    cases hres with
    | terminated htext hs hplain hc hrc' hwords =>
      obtain rfl := Except.ok.inj (hlex.symm.trans hrc')
      refine ⟨by simpa using hwords, _, _, ?_, hs, hplain⟩
      rcases hc with ⟨rfl, rfl⟩ | ⟨rfl, rfl⟩
      · exact htext
      · exact htext
    | blockDone _ _ _ hrc' _ =>
      obtain rfl := Except.ok.inj (hlex.symm.trans hrc')
      simp at hor
    | fileDone _ hrc' _ =>
      obtain rfl := Except.ok.inj (hlex.symm.trans hrc')
      simp at hor
    | failed _ hrc' =>
      rw [hlex] at hrc'
      cases hrc'
  refine ⟨hterminated, ?_, ?_, ?_, ?_, readToken_stands hS h w⟩
  · intro hrc
    obtain ⟨hlex, hargs, hrest⟩ := readToken_results h hrc
    have hres := lex_results (conf.rest content)
    rw [hargs, hrest]
    generalize lex none (conf.rest content) = x at hlex hres ⊢
    cases hres with
    | terminated _ _ _ hc hrc' _ =>
      obtain rfl := Except.ok.inj (hlex.symm.trans hrc')
      simp at hc
    | blockDone htext hs hmode _ hwords => exact ⟨by simpa using hwords, _, _, htext, hs, hmode⟩
    | fileDone _ hrc' _ =>
      rw [hlex] at hrc'
      cases hrc'
    | failed _ hrc' =>
      rw [hlex] at hrc'
      cases hrc'
  · intro hrc
    obtain ⟨hlex, hargs, hrest⟩ := readToken_results h hrc
    have hres := lex_results (conf.rest content)
    rw [hargs, hrest]
    generalize lex none (conf.rest content) = x at hlex hres ⊢
    cases hres with
    | terminated _ _ _ hc hrc' _ =>
      obtain rfl := Except.ok.inj (hlex.symm.trans hrc')
      simp at hc
    | blockDone _ _ _ hrc' _ =>
      rw [hlex] at hrc'
      cases hrc'
    | fileDone hfill _ hwords => exact ⟨by simpa using hwords, hfill, rfl⟩
    | failed _ hrc' =>
      rw [hlex] at hrc'
      cases hrc'
  · intro hinside
    cases hrc : (readToken S conf w).rc with
    | error e => exact ⟨e, rfl⟩
    | ok rc =>
      obtain ⟨hlex, -⟩ := readToken_results h hrc
      rw [lex_inside hinside] at hlex
      cases hlex
  · intro rc hrc hor
    obtain ⟨hne, -⟩ := hterminated rc hrc hor
    obtain ⟨name, rest, hargs⟩ := List.exists_cons_of_ne_nil hne
    refine ⟨fun T parse cf => confHandler_named T parse rc hargs, ?_⟩
    intro type i hi
    obtain ⟨rfl, hle, -⟩ := argumentIndex_admits hi
    rw [hargs, List.length_cons] at hle ⊢
    unfold confMaxArgs at hle
    omega

end

theorem Sys.plain_supplies (fd : Int) (content : List UInt8) :
    (Sys.plain content).Supplies fd content := by
  intro n off w bs h
  obtain rfl := Option.some.inj h
  exact List.prefix_rfl

/-- The statement for the first call on a file with a block in it. -/
theorem readToken_reliable_sample :
    Reliable (Sys.plain sampleText) sampleText (.opened 3 sampleText.length) () :=
  readToken_reliable (Sys.plain_readsWithin _) (.opened (Sys.plain_supplies 3 _)) ()

end Capwap
