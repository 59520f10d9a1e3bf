/-
# The rounds of the tokenizer

What one round of `cw_conf_read_token` can do, said once for each of its parts: `Refills` for the
part under `if (b->pos >= b->last)`, `Scans` for a byte, and `Pushes` for a word that ends.  The
first names the size of the read (`Tok.request`), the second goes from mode to mode.

From these follows what holds at the head of the loop in every call (`Tok.At`), whatever the
system answers and whatever the text is: the two offsets are in order, a closing quote has a word
before it, and the scanner's `quoted` is what decoding the bytes since `start` leaves pending.
-/
import Capwap.Conf.Refine

namespace Capwap

/-! ## 1. The parts of a round

Each part of the source has an inductive relation that lists its outcomes, with what is known in
each: the tests that were passed, and the state it goes on with.  The functions of
`Conf/Token.lean` are unfolded once, in the lemmas that prove these lists complete. -/

section
variable {σ : Type} {S : Sys σ} {t t' : Tok σ}

/-- The size of the read that a refill asks for, if it asks for one. -/
def Tok.request (t : Tok σ) : Option Nat :=
  if t.conf.buffer.pos ≥ t.conf.buffer.bytes.length ∧ t.conf.file.offset < t.conf.file.size ∧
      t.conf.buffer.pos - t.start ≠ confBuffer then
    some (min (t.conf.file.size - t.conf.file.offset)
      (t.conf.buffer.cap - (t.conf.buffer.pos - t.start)))
  else none

/-- The file once `n` bytes of it have been read. -/
def ConfFile.took (conf : ConfFile) (n : Nat) : ConfFile :=
  { conf with file := { conf.file with offset := conf.file.offset + n } }

/-- The state once the bytes `bs` stand behind those that were kept. -/
def Tok.fill (t : Tok σ) (bs : List UInt8) (w : σ) : Tok σ :=
  { t with
    start := 0
    conf := { t.conf.took bs.length with
      buffer := { bytes := t.raw ++ bs, pos := t.conf.buffer.pos - t.start,
                  cap := t.conf.buffer.cap } }
    world := w }

/-- What becomes of the part under `if (b->pos >= b->last)`: nothing when there is a byte, the end
of the text, a report, a read that fails or is short, or a full read. -/
inductive Refills (S : Sys σ) (t : Tok σ) : Step (Tok σ) (TokenResult σ) → Prop
  | inside (hlt : t.conf.buffer.pos < t.conf.buffer.bytes.length) : Refills S t (.next t)
  | fileDone (hge : t.conf.buffer.pos ≥ t.conf.buffer.bytes.length)
      (hoff : t.conf.file.size ≤ t.conf.file.offset) (hargs : t.args = [])
      (hgap : t.flags.lastSpace = true) : Refills S t (t.ret .fileDone)
  | unfinished (hge : t.conf.buffer.pos ≥ t.conf.buffer.bytes.length)
      (hoff : t.conf.file.size ≤ t.conf.file.offset)
      (h : t.args ≠ [] ∨ t.flags.lastSpace = false) :
      Refills S t (t.fail (.unexpectedEnd (t.conf.file.fd == invalidFile)))
  | tooLong (quote : Option UInt8) (hfull : t.conf.buffer.pos - t.start = confBuffer) :
      Refills S t
        (Tok.fail { t with conf := { t.conf with line := t.startLine } } (.tooLong quote t.raw))
  | readFailed {n : Nat} {w : σ} (hreq : t.request = some n)
      (hread : S.pread t.conf.file.fd n t.conf.file.offset t.world = (none, w)) :
      Refills S t (Tok.fail { t with world := w } .readFailed)
  | readShort {n : Nat} {bs : List UInt8} {w : σ} (hreq : t.request = some n)
      (hread : S.pread t.conf.file.fd n t.conf.file.offset t.world = (some bs, w))
      (hne : bs.length ≠ n) :
      Refills S t (Tok.fail { t with conf := t.conf.took bs.length, world := w }
        (.readShort bs.length n))
  | filled {n : Nat} {bs : List UInt8} {w : σ} (hreq : t.request = some n)
      (hread : S.pread t.conf.file.fd n t.conf.file.offset t.world = (some bs, w))
      (hlen : bs.length = n) : Refills S t (.next (t.fill bs w))

theorem refill_refills (S : Sys σ) (t : Tok σ) : Refills S t (refill S t) := by
  unfold refill
  by_cases hge : t.conf.buffer.pos ≥ t.conf.buffer.bytes.length
  · rw [if_pos hge]
    by_cases hoff : t.conf.file.offset ≥ t.conf.file.size
    · rw [if_pos hoff]
      by_cases hopen : t.args.length > 0 ∨ t.flags.lastSpace = false
      · rw [if_pos hopen]
        exact .unfinished hge hoff (hopen.imp_left List.ne_nil_of_length_pos)
      · rw [if_neg hopen]
        obtain ⟨hargs, hlast⟩ := not_or.mp hopen
        refine .fileDone hge hoff ?_ (by simpa using hlast)
        exact List.eq_nil_of_length_eq_zero (by omega)
    · rw [if_neg hoff]
      by_cases hfull : t.conf.buffer.pos - t.start = confBuffer
      · simp only [if_pos hfull]
        exact .tooLong _ hfull
      · simp only [if_neg hfull]
        have hreq : t.request = some (if t.conf.file.size - t.conf.file.offset
            > t.conf.buffer.cap - (t.conf.buffer.pos - t.start)
            then t.conf.buffer.cap - (t.conf.buffer.pos - t.start)
            else t.conf.file.size - t.conf.file.offset) := by
          unfold Tok.request
          rw [if_pos ⟨hge, by omega, hfull⟩]
          congr 1
          split <;> omega
        generalize (if t.conf.file.size - t.conf.file.offset
            > t.conf.buffer.cap - (t.conf.buffer.pos - t.start)
            then t.conf.buffer.cap - (t.conf.buffer.pos - t.start)
            else t.conf.file.size - t.conf.file.offset) = n at hreq ⊢
        unfold readFile
        cases hread : S.pread t.conf.file.fd n t.conf.file.offset t.world with
        | mk ans w =>
          cases ans with
          | none => exact .readFailed hreq hread
          | some bs =>
            simp only
            by_cases hne : bs.length ≠ n
            · rw [if_pos hne]
              exact .readShort hreq hread hne
            · rw [if_neg hne]
              exact .filled hreq hread (not_not.mp hne)
  · rw [if_neg hge]
    exact .inside (by omega)

/-- What becomes of a word that ends at `stop`, before the byte `ch`: there is no element for it,
or no room for its bytes, or it is pushed, and the call goes on or returns as the byte says. -/
inductive Pushes (S : Sys σ) (t : Tok σ) (stop : Nat) (ch : UInt8) :
    Step (Tok σ) (TokenResult σ) → Prop
  | noElement {w : σ} (hpush : S.arrayPush t.world = (false, w)) :
      Pushes S t stop ch (Tok.fail { t with world := w } .noElement)
  | noData {w w' : σ} (hpush : S.arrayPush t.world = (true, w))
      (hdata : S.pnalloc (stop - t.start + 1) w = (false, w')) :
      Pushes S t stop ch
        (Tok.fail { t with args := t.args ++ [(⟨0, []⟩ : Word)], world := w' } .noData)
  | pushed {w w' : σ} {r : Step (Tok σ) (TokenResult σ)} (hpush : S.arrayPush t.world = (true, w))
      (hdata : S.pnalloc (stop - t.start + 1) w = (true, w'))
      (hr : (ch = Ch.semicolon ∧ r = Tok.ret { t with
            args := t.args ++ [copyWord t.conf.buffer.bytes t.start stop], world := w' } .ok) ∨
          (ch = Ch.lbrace ∧ r = Tok.ret { t with
            args := t.args ++ [copyWord t.conf.buffer.bytes t.start stop], world := w' }
              .blockStart) ∨
          (ch ≠ Ch.semicolon ∧ ch ≠ Ch.lbrace ∧ r = .next { t with
            args := t.args ++ [copyWord t.conf.buffer.bytes t.start stop], world := w' })) :
      Pushes S t stop ch r

theorem pushWord_pushes (S : Sys σ) (t : Tok σ) (stop : Nat) (ch : UInt8) :
    Pushes S t stop ch (pushWord S t stop ch) := by
  unfold pushWord
  cases hpush : S.arrayPush t.world with
  | mk ok w =>
    cases ok with
    | false => exact .noElement hpush
    | true =>
      simp only
      cases hdata : S.pnalloc (stop - t.start + 1) w with
      | mk ok' w' =>
        cases ok' with
        | false => exact .noData hpush hdata
        | true =>
          simp only
          refine .pushed hpush hdata ?_
          by_cases h1 : ch = Ch.semicolon
          · exact Or.inl ⟨h1, if_pos h1⟩
          · by_cases h2 : ch = Ch.lbrace
            · exact Or.inr (Or.inl ⟨h2, by rw [if_neg h1, if_pos h2]⟩)
            · exact Or.inr (Or.inr ⟨h1, h2, by rw [if_neg h1, if_neg h2]⟩)

end

/-- What a byte does between modes, when `n` words have been read.  The modes are those of the
lexer, and the moves are those of the code: going on, marking the start of an item, ending a word,
returning a code, or failing. -/
inductive Scans (n : Nat) (c : UInt8) : Mode → Mode → Move → Prop
  | blank (h : isBlank c = true) : Scans n c .gap .gap .go
  | semicolon (hn : n ≠ 0) (h : c = Ch.semicolon) : Scans n c .gap .gap (.ret .ok)
  | lbrace (hn : n ≠ 0) (h : c = Ch.lbrace) : Scans n c .gap .gap (.ret .blockStart)
  | rbrace (hn : n = 0) (h : c = Ch.rbrace) : Scans n c .gap .gap (.ret .blockDone)
  | misplaced : Scans n c .gap .gap .fail
  | sharp (h : c = Ch.sharp) : Scans n c .gap .comment (.mark 0)
  | backslash (h : c = Ch.backslash) : Scans n c .gap (.word .bare false true) (.mark 0)
  | quote {q : Quote} (h : q.Mark c) : Scans n c .gap (.word q false false) (.mark 1)
  | first (h : c ≠ Ch.backslash) : Scans n c .gap (.word .bare false false) (.mark 0)
  | inComment (h : c ≠ Ch.lf) : Scans n c .comment .comment .go
  | afterComment (h : c = Ch.lf) : Scans n c .comment .gap .go
  | separated (h : isBlank c = true) : Scans n c .closed .gap .go
  | closedSemicolon (h : c = Ch.semicolon) : Scans n c .closed .closed (.ret .ok)
  | closedLbrace (h : c = Ch.lbrace) : Scans n c .closed .closed (.ret .blockStart)
  | rparen (h : c = Ch.rparen) : Scans n c .closed (.word .bare false false) (.mark 0)
  | unseparated : Scans n c .closed .closed .fail
  | escaped {q : Quote} {var : Bool} : Scans n c (.word q var true) (.word q var false) .go
  | escape {q : Quote} {var : Bool} (h : c = Ch.backslash) :
      Scans n c (.word q var false) (.word q false true) .go
  | plain {q : Quote} {var : Bool} (v : Bool) (h : c ≠ Ch.backslash) :
      Scans n c (.word q var false) (.word q v false) .go
  | ends {q : Quote} {var : Bool} (h : q.Ends c) :
      Scans n c (.word q var false) (if q = .bare then .gap else .closed) .word

namespace Scans

variable {n : Nat} {c : UInt8} {m m' : Mode}

/-- Going on in a word, a byte is decoded as the scanner's `quoted` has it: behind a backslash any
byte is the second half of an escape. -/
theorem going (h : Scans n c m m' .go) :
    m' ≠ .closed ∧ ∀ q var esc, m' = .word q var esc → ∃ var' esc', m = .word q var' esc' ∧
      ∀ d : List UInt8 × Bool, d.2 = esc' → (decodeByte d c).2 = esc := by
  cases h with
  | blank _ => simp
  | inComment _ => simp
  | afterComment _ => simp
  | separated _ => simp
  | @escaped q var =>
    refine ⟨by simp, ?_⟩
    rintro q' var' esc ⟨⟩
    exact ⟨var, true, rfl, fun d hd => by simp [decodeByte, hd]⟩
  | @escape q var hc =>
    refine ⟨by simp, ?_⟩
    rintro q' var' esc ⟨⟩
    exact ⟨var, false, rfl, fun d hd => by simp [decodeByte, hd, hc]⟩
  | @plain q var v hc =>
    refine ⟨by simp, ?_⟩
    rintro q' var' esc ⟨⟩
    exact ⟨var, false, rfl, fun d hd => by simp [decodeByte, hd, hc]⟩

/-- An item starts at the byte or behind it. -/
theorem marking {skip : Nat} (h : Scans n c m m' (.mark skip)) :
    skip ≤ 1 ∧ m' ≠ .closed ∧ ∀ q var esc, m' = .word q var esc →
      (if skip = 0 then decodeByte ([], false) c else ([], false)).2 = esc := by
  cases h with
  | sharp _ => simp
  | backslash hc =>
    refine ⟨by omega, by simp, ?_⟩
    rintro q var esc ⟨⟩
    simp [decodeByte, hc]
  | quote _ =>
    refine ⟨by omega, by simp, ?_⟩
    rintro q var esc ⟨⟩
    rfl
  | first hc =>
    refine ⟨by omega, by simp, ?_⟩
    rintro q var esc ⟨⟩
    simp [decodeByte, hc]
  | rparen hc =>
    refine ⟨by omega, by simp, ?_⟩
    rintro q var esc ⟨⟩
    simp +decide [decodeByte, hc]

/-- A word ends where no backslash is pending, so the bytes that are copied have no half of an
escape at their end. -/
theorem ending (h : Scans n c m m' .word) :
    (∃ q var, m = .word q var false ∧ q.Ends c) ∧ ∀ q var esc, m' ≠ .word q var esc := by
  cases h with
  | @ends q var hends =>
    refine ⟨⟨q, var, rfl, hends⟩, ?_⟩
    intro q' var' esc hm
    split at hm <;> cases hm

end Scans

/-- Between words. -/
theorem betweenWords_scans (n : Nat) (c : UInt8) :
    ∃ m, (betweenWords Mode.gap.flags n c).1 = m.flags ∧
      Scans n c .gap m (betweenWords Mode.gap.flags n c).2 := by
  unfold betweenWords
  by_cases h1 : isBlank c = true
  · rw [if_pos h1]
    exact ⟨.gap, rfl, .blank h1⟩
  rw [if_neg h1]
  by_cases h2 : c = Ch.semicolon ∨ c = Ch.lbrace
  · rw [if_pos h2]
    by_cases hn : n = 0
    · rw [if_pos hn]
      exact ⟨.gap, rfl, .misplaced⟩
    · rw [if_neg hn]
      by_cases h3 : c = Ch.lbrace
      · rw [if_pos h3]
        exact ⟨.gap, rfl, .lbrace hn h3⟩
      · rw [if_neg h3]
        exact ⟨.gap, rfl, .semicolon hn (h2.resolve_right h3)⟩
  rw [if_neg h2]
  by_cases h3 : c = Ch.rbrace
  · rw [if_pos h3]
    by_cases hn : n ≠ 0
    · rw [if_pos hn]
      exact ⟨.gap, rfl, .misplaced⟩
    · rw [if_neg hn]
      exact ⟨.gap, rfl, .rbrace (not_not.mp hn) h3⟩
  rw [if_neg h3]
  by_cases h4 : c = Ch.sharp
  · rw [if_pos h4]
    exact ⟨.comment, rfl, .sharp h4⟩
  rw [if_neg h4]
  by_cases h5 : c = Ch.backslash
  · rw [if_pos h5]
    exact ⟨.word .bare false true, rfl, .backslash h5⟩
  rw [if_neg h5]
  by_cases h6 : c = Ch.dquote
  · rw [if_pos h6]
    exact ⟨.word .double false false, rfl, .quote (h6 ▸ .double)⟩
  rw [if_neg h6]
  by_cases h7 : c = Ch.squote
  · rw [if_pos h7]
    exact ⟨.word .single false false, rfl, .quote (h7 ▸ .single)⟩
  rw [if_neg h7]
  exact ⟨.word .bare false false, rfl, .first h5⟩

/-- Inside a word, not after a backslash. -/
theorem insideWord_scans (n : Nat) (q : Quote) (var : Bool) (c : UInt8) :
    ∃ m, (insideWord (Mode.word q var false).flags c).1 = m.flags ∧
      Scans n c (.word q var false) m (insideWord (Mode.word q var false).flags c).2 := by
  unfold insideWord
  by_cases h1 : c = Ch.lbrace ∧ (Mode.word q var false).flags.var = true
  · rw [if_pos h1]
    exact ⟨.word q var false, rfl, .plain var (by rw [h1.1]; decide)⟩
  rw [if_neg h1]
  by_cases h2 : c = Ch.backslash
  · simp only [if_pos h2]
    exact ⟨.word q false true, rfl, .escape h2⟩
  simp only [if_neg h2]
  by_cases h3 : c = Ch.dollar
  · simp only [if_pos h3]
    exact ⟨.word q true false, rfl, .plain true h2⟩
  simp only [if_neg h3]
  by_cases h4 : q.Ends c
  · refine ⟨if q = .bare then .gap else .closed, ?_⟩
    have hends : Scans n c (.word q var false) (if q = .bare then .gap else .closed) .word :=
      .ends h4
    cases q with
    | bare =>
      have hbare : isBlank c = true ∨ c = Ch.semicolon ∨ c = Ch.lbrace := h4
      simp only [Mode.flags, Flags.start, if_pos hbare]
      exact ⟨rfl, hends⟩
    | single =>
      have hc : c = Ch.squote := h4
      simp only [Mode.flags, Flags.start, hc, if_true] at hends ⊢
      exact ⟨rfl, hends⟩
    | double =>
      have hc : c = Ch.dquote := h4
      simp only [Mode.flags, Flags.start, hc, if_true] at hends ⊢
      exact ⟨rfl, hends⟩
  · refine ⟨.word q false false, ?_⟩
    have hplain : Scans n c (.word q var false) (.word q false false) .go := .plain false h2
    cases q with
    | bare =>
      have hbare : ¬ (isBlank c = true ∨ c = Ch.semicolon ∨ c = Ch.lbrace) := h4
      simp only [Mode.flags, Flags.start, if_neg hbare]
      exact ⟨rfl, hplain⟩
    | single =>
      have hc : ¬ c = Ch.squote := h4
      simp only [Mode.flags, Flags.start, if_neg hc]
      exact ⟨rfl, hplain⟩
    | double =>
      have hc : ¬ c = Ch.dquote := h4
      simp only [Mode.flags, Flags.start, if_neg hc]
      exact ⟨rfl, hplain⟩

/-- One byte, in any mode: whatever the scanner does with it is one of the cases of `Scans`. -/
theorem scanByte_scans (m : Mode) (n : Nat) (c : UInt8) :
    ∃ m', (scanByte m.flags n c).1 = m'.flags ∧ Scans n c m m' (scanByte m.flags n c).2 := by
  cases m with
  | gap =>
    have hb : scanByte Mode.gap.flags n c = betweenWords Mode.gap.flags n c := by
      simp [scanByte, scanText, Mode.flags, Flags.start]
    rw [hb]
    exact betweenWords_scans n c
  | comment =>
    by_cases hlf : c = Ch.lf
    · have hb : scanByte Mode.comment.flags n c = (Mode.gap.flags, .go) := by
        simp [scanByte, scanText, betweenWords, isBlank, Mode.flags, Flags.start, hlf]
      rw [hb]
      exact ⟨.gap, rfl, .afterComment hlf⟩
    · have hb : scanByte Mode.comment.flags n c = (Mode.comment.flags, .go) := by
        simp [scanByte, Mode.flags, Flags.start, hlf]
      rw [hb]
      exact ⟨.comment, rfl, .inComment hlf⟩
  | word q var esc =>
    cases esc with
    | false =>
      have hb : scanByte (Mode.word q var false).flags n c
          = insideWord (Mode.word q var false).flags c := by
        simp [scanByte, scanText, Mode.flags, Flags.start]
      rw [hb]
      exact insideWord_scans n q var c
    | true =>
      have hb : scanByte (Mode.word q var true).flags n c
          = ((Mode.word q var false).flags, .go) := by
        simp [scanByte, Mode.flags, Flags.start]
      rw [hb]
      exact ⟨.word q var false, rfl, .escaped⟩
  | closed =>
    by_cases h1 : isBlank c = true
    · have hb : scanByte Mode.closed.flags n c = (Mode.gap.flags, .go) := by
        simp [scanByte, Mode.flags, Flags.start, h1]
      rw [hb]
      exact ⟨.gap, rfl, .separated h1⟩
    have hb : scanByte Mode.closed.flags n c =
        if c = Ch.semicolon then (Mode.closed.flags, .ret .ok)
        else if c = Ch.lbrace then (Mode.closed.flags, .ret .blockStart)
        else if c = Ch.rparen then betweenWords Mode.gap.flags n c
        else (Mode.closed.flags, .fail) := by
      simp [scanByte, scanText, Mode.flags, Flags.start, h1]
    rw [hb]
    by_cases h2 : c = Ch.semicolon
    · rw [if_pos h2]
      exact ⟨.closed, rfl, .closedSemicolon h2⟩
    rw [if_neg h2]
    by_cases h3 : c = Ch.lbrace
    · rw [if_pos h3]
      exact ⟨.closed, rfl, .closedLbrace h3⟩
    rw [if_neg h3]
    by_cases h4 : c = Ch.rparen
    · have hparen : betweenWords Mode.gap.flags n c
          = ((Mode.word .bare false false).flags, .mark 0) := by
        simp +decide [betweenWords, Mode.flags, Flags.start, h4]
      rw [if_pos h4, hparen]
      exact ⟨.word .bare false false, rfl, .rparen h4⟩
    rw [if_neg h4]
    exact ⟨.closed, rfl, .unseparated⟩

/-! ## 2. At the head of the loop

The lexer's mode can be read off the flags in every state the loop comes to, also when reads return
something else than the file has; so it serves as the invariant.  That the text is what a lexer
would see is not part of it. -/

section
variable {σ : Type} {S : Sys σ} {t t' : Tok σ} {m : Mode} {c : UInt8}

/-- The state at the head of the loop: the flags are those of a mode, `start` and `pos` are in
order, a closing quote has a word before it, and in a word `quoted` says whether the bytes since
`start` leave a backslash pending. -/
structure Tok.At (t : Tok σ) (m : Mode) : Prop where
  flags : t.flags = m.flags
  start_le : t.start ≤ t.conf.buffer.pos
  pos_le : t.conf.buffer.pos ≤ t.conf.buffer.bytes.length
  words : m = .closed → t.args ≠ []
  pending : ∀ q var esc, m = .word q var esc → (decode t.raw).2 = esc

theorem Tok.raw_length (h : t.At m) : t.raw.length = t.conf.buffer.pos - t.start :=
  slice_length h.pos_le

theorem Tok.At.init (S : Sys σ) {conf : ConfFile} (w : σ)
    (h : conf.buffer.pos ≤ conf.buffer.bytes.length) : (Tok.init S conf w).At .gap :=
  ⟨rfl, Nat.le_refl _, h, by simp, by simp⟩

/-- What is kept stays in front of what is read. -/
theorem Tok.fill_raw (h : t.At m) (bs : List UInt8) (w : σ) : (t.fill bs w).raw = t.raw := by
  have hlen := Tok.raw_length h
  have hfill : (t.fill bs w).raw = (t.raw ++ bs).take (t.conf.buffer.pos - t.start) := by
    simp [Tok.raw, Tok.fill, slice]
  rw [hfill, ← hlen, List.take_left]

theorem Tok.At.fill (h : t.At m) (bs : List UInt8) (w : σ) : (t.fill bs w).At m where
  flags := h.flags
  start_le := Nat.zero_le _
  pos_le := by
    have hlen := Tok.raw_length h
    simp only [Tok.fill, List.length_append]
    omega
  words := h.words
  pending q var esc hm := by
    rw [Tok.fill_raw h]
    exact h.pending q var esc hm

/-- A refill keeps the state in order: the bytes from `start` on are the same as before, in another
place. -/
theorem Tok.At.refill (h : t.At m) (hr : refill S t = .next t') : t'.At m := by
  have href := refill_refills S t
  rw [hr] at href
  cases href with
  | inside _ => exact h
  | filled _ _ _ => exact h.fill _ _

/-- Going on in the current item. -/
theorem Tok.At.go (h : t.At m) (hc : t.conf.buffer.bytes[t.conf.buffer.pos]? = some c)
    {m' : Mode} (hwords : m' = .closed → t.args ≠ [])
    (hdec : ∀ q var esc, m' = .word q var esc → (decodeByte (decode t.raw) c).2 = esc) :
    Tok.At { t with flags := m'.flags, conf := t.conf.advance c } m' := by
  have hstart := h.start_le
  have hraw : slice t.conf.buffer.bytes t.start (t.conf.buffer.pos + 1) = t.raw ++ [c] :=
    slice_snoc hstart hc
  obtain ⟨hlt, -⟩ := List.getElem?_eq_some_iff.mp hc
  refine ⟨rfl, ?_, ?_, hwords, ?_⟩
  · simp only [ConfFile.advance]; omega
  · simp only [ConfFile.advance]; omega
  · intro q var esc hm
    refine (congrArg (fun x => (decode x).2) hraw).trans ?_
    rw [decode_append_singleton]
    exact hdec q var esc hm

/-- Starting an item at this byte (`skip` 0) or behind it (`skip` 1). -/
theorem Tok.At.mark (hc : t.conf.buffer.bytes[t.conf.buffer.pos]? = some c) {m' : Mode}
    {skip line : Nat} (hskip : skip ≤ 1) (hclosed : m' ≠ .closed)
    (hdec : ∀ q var esc, m' = .word q var esc →
      (if skip = 0 then decodeByte ([], false) c else ([], false)).2 = esc) :
    Tok.At { t with flags := m'.flags, conf := t.conf.advance c,
                    start := t.conf.buffer.pos + skip, startLine := line } m' := by
  obtain ⟨hlt, -⟩ := List.getElem?_eq_some_iff.mp hc
  have hone : slice t.conf.buffer.bytes t.conf.buffer.pos (t.conf.buffer.pos + 1) = [c] := by
    rw [slice_snoc (Nat.le_refl _) hc, slice_self]
    rfl
  have hraw : slice t.conf.buffer.bytes (t.conf.buffer.pos + skip) (t.conf.buffer.pos + 1)
      = if skip = 0 then [c] else [] := by
    split
    · rename_i h0
      rw [h0, Nat.add_zero, hone]
    · rw [show skip = 1 by omega, slice_self]
  refine ⟨rfl, ?_, ?_, fun hm => absurd hm hclosed, ?_⟩
  · simp only [ConfFile.advance]; omega
  · simp only [ConfFile.advance]; omega
  · intro q var esc hm
    refine (congrArg (fun x => (decode x).2) hraw).trans ?_
    rw [← hdec q var esc hm]
    split <;> rfl

/-- A word that is pushed, or is not, leaves the file as it is. -/
theorem Pushes.conf {stop : Nat} {r : Step (Tok σ) (TokenResult σ)} (h : Pushes S t stop c r) :
    (∀ t', r = .next t' → t'.conf = t.conf) ∧ ∀ res, r = .done res → res.conf = t.conf := by
  cases h with
  | noElement _ =>
    refine ⟨by simp [Tok.fail], ?_⟩
    rintro _ ⟨⟩
    rfl
  | noData _ _ =>
    refine ⟨by simp [Tok.fail], ?_⟩
    rintro _ ⟨⟩
    rfl
  | pushed _ _ hr =>
    rcases hr with ⟨-, rfl⟩ | ⟨-, rfl⟩ | ⟨-, -, rfl⟩
    · refine ⟨by simp [Tok.ret], ?_⟩
      rintro _ ⟨⟩
      rfl
    · refine ⟨by simp [Tok.ret], ?_⟩
      rintro _ ⟨⟩
      rfl
    · refine ⟨?_, by simp⟩
      rintro _ ⟨⟩
      rfl

/-- Whatever follows from it, a byte is taken: the position is one further, and the buffer is as it
was. -/
theorem Tok.after_conf (S : Sys σ) (t : Tok σ) (c : UInt8) (f : Flags) (mv : Move) :
    (∀ t', t.after S c f mv = .next t' → t'.conf = t.conf.advance c) ∧
      ∀ r, t.after S c f mv = .done r → r.conf = t.conf.advance c := by
  cases mv with
  | go =>
    refine ⟨?_, by simp [Tok.after]⟩
    rintro _ ⟨⟩
    rfl
  | mark skip =>
    refine ⟨?_, by simp [Tok.after]⟩
    rintro _ ⟨⟩
    rfl
  | word =>
    exact (pushWord_pushes S { t with flags := f, conf := t.conf.advance c }
      t.conf.buffer.pos c).conf
  | ret rc =>
    refine ⟨by simp [Tok.after, Tok.ret], ?_⟩
    rintro _ ⟨⟩
    rfl
  | fail =>
    refine ⟨by simp [Tok.after, Tok.fail], ?_⟩
    rintro _ ⟨⟩
    rfl

/-- A byte leads from mode to mode. -/
theorem Tok.At.scan_after (h : t.At m) (S : Sys σ)
    (hc : t.conf.buffer.bytes[t.conf.buffer.pos]? = some c) :
    ∃ m' mv, Scans t.args.length c m m' mv ∧ Capwap.scan S t = t.after S c m'.flags mv := by
  obtain ⟨m', hflags, hscans⟩ := scanByte_scans m t.args.length c
  rw [← h.flags] at hflags hscans
  exact ⟨m', _, hscans, scan_eq S hc (Prod.ext hflags rfl)⟩

/-- A byte keeps the state in order. -/
theorem Tok.At.scan (h : t.At m) (hs : Capwap.scan S t = .next t') : ∃ m', t'.At m' := by
  cases hc : t.conf.buffer.bytes[t.conf.buffer.pos]? with
  | none =>
    unfold Capwap.scan at hs
    simp [hc, Tok.fail] at hs
  | some c =>
    obtain ⟨m', mv, hscans, hafter⟩ := h.scan_after S hc
    rw [hafter] at hs
    cases mv with
    | ret rc => simp [Tok.after, Tok.ret] at hs
    | fail => simp [Tok.after, Tok.fail] at hs
    | go =>
      obtain rfl := Step.next.inj hs
      obtain ⟨hclosed, hdec⟩ := hscans.going
      refine ⟨m', h.go hc (fun hm => absurd hm hclosed) ?_⟩
      intro q var esc hm
      obtain ⟨var', esc', hm', hbyte⟩ := hdec q var esc hm
      exact hbyte _ (h.pending q var' esc' hm')
    | mark skip =>
      obtain rfl := Step.next.inj hs
      obtain ⟨hskip, hclosed, hdec⟩ := hscans.marking
      exact ⟨m', Tok.At.mark hc hskip hclosed hdec⟩
    | word =>
      have hpush := pushWord_pushes S { t with flags := m'.flags, conf := t.conf.advance c }
        t.conf.buffer.pos c
      have hs' : pushWord S { t with flags := m'.flags, conf := t.conf.advance c }
        t.conf.buffer.pos c = .next t' := hs
      rw [hs'] at hpush
      have hgo : ∀ (args : List Word) (w : σ), args ≠ [] → Tok.At { t with
          flags := m'.flags, conf := t.conf.advance c, args := args, world := w } m' := by
        intro args w hargs
        have hnext : Tok.At { t with flags := Mode.gap.flags, conf := t.conf.advance c } .gap :=
          h.go hc (by simp) (by simp)
        exact ⟨rfl, hnext.start_le, hnext.pos_le, fun _ => hargs,
          fun q var esc hm => absurd hm (hscans.ending.2 q var esc)⟩
      cases hpush with
      | pushed _ _ hr =>
        rcases hr with ⟨-, hr⟩ | ⟨-, hr⟩ | ⟨-, -, hr⟩
        · simp [Tok.ret] at hr
        · simp [Tok.ret] at hr
        · obtain rfl := Step.next.inj hr
          exact ⟨m', hgo _ _ (by simp)⟩

/-- A round keeps the state in order, so it is in order in every state the loop comes to, whatever
the reads return. -/
theorem tokenStep_at {m : Mode} (h : t.At m) (hs : tokenStep S t = .next t') :
    ∃ m', t'.At m' := by
  unfold tokenStep at hs
  cases hr : refill S t with
  | done r => simp [hr] at hs
  | next t₁ =>
    simp only [hr] at hs
    exact (h.refill hr).scan hs

end

end Capwap
