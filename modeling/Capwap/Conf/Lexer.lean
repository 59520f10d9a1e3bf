/-
# What the tokenizer is for

A configuration text is a sequence of words, blanks, comments, `;`, `{` and `}`.  A word is
bare, or stands between single or double quotes; a backslash takes the special meaning of the
next byte away, or names LF, CR or TAB; inside a word a `{` after `$` is an ordinary byte.

The lexer below reads the text as a stream, one byte at a time, with no buffer and no second
pass: it decodes the escapes of a word while it scans it, and the only trace of the buffer is
`since`, the number of bytes since the start of the current item, with an optional `limit` on
it.  `Conf/Refine.lean` shows that `cw_conf_read_token` computes what this lexer computes,
with `CW_CONF_BUFFER` as the limit for a file and no limit for a text in memory.
-/
import Capwap.Conf.Token

namespace Capwap

/-! ## 1. The lexer

It is written from what a configuration file is, with a mode for each thing one can be in the
middle of.  It serves as the meaning of the tokenizer: what is later said about configuration files
is said about this function, and `Conf/Refine.lean` carries it over. -/

/-- How a word is delimited: by blanks and the ends of directives, or by one of the two quotes. -/
inductive Quote
  | bare
  | single
  | double
deriving DecidableEq, Repr

/-- Where the lexer is: between words, in a comment, right behind a closing quote, or in a word.
In a word it remembers whether a `{` would be passed over (`var`), and whether a backslash is
pending (`esc`). -/
inductive Mode
  /-- between words -/
  | gap
  /-- in a comment -/
  | comment
  /-- in a word; `var` after `$`, `esc` after a backslash -/
  | word (q : Quote) (var esc : Bool)
  /-- right after a closing quote -/
  | closed
deriving DecidableEq, Repr

/-- Why a text is not well formed: a byte that may not stand where it does, an end that comes too
early, or an item that reaches the limit. -/
inductive LexError
  | unexpected (ch : UInt8)
  | unfinished
  | tooLong
deriving DecidableEq, Repr

/-- What a call yields: a code or an error, and the words read. -/
structure Lexeme where
  rc : Except LexError Rc
  words : List (List UInt8)

/-- The state of the lexer: the words read, the decoded text of the current one, and the number of
bytes since the current item started.  `since` has no part in what is read; only a limit looks at
it. -/
structure Lexer where
  mode : Mode
  words : List (List UInt8)
  text : List UInt8
  since : Nat
deriving DecidableEq, Repr

/-- What a backslash followed by `ch` stands for. -/
def decodeEsc (ch : UInt8) : List UInt8 :=
  if ch = Ch.dquote ∨ ch = Ch.squote ∨ ch = Ch.backslash then [ch]
  else if ch = Ch.t then [Ch.tab]
  else if ch = Ch.r then [Ch.cr]
  else if ch = Ch.n then [Ch.lf]
  else [Ch.backslash, ch]

/-- The byte that ends a word: the quote it began with, or for a bare word a blank, a `;` or a
`{`. -/
def Quote.Ends : Quote → UInt8 → Prop
  | .bare, ch => isBlank ch ∨ ch = Ch.semicolon ∨ ch = Ch.lbrace
  | .single, ch => ch = Ch.squote
  | .double, ch => ch = Ch.dquote

instance (q : Quote) (ch : UInt8) : Decidable (q.Ends ch) := by
  cases q <;> unfold Quote.Ends <;> infer_instance

namespace Lexer

/-- The state at the start of a call. -/
def start : Lexer := { mode := .gap, words := [], text := [], since := 0 }

/-- Return, with a code or an error. -/
def ret (s : Lexer) (rc : Except LexError Rc) : Step Lexer Lexeme := .done ⟨rc, s.words⟩

/-- One byte between words: a blank is passed over, `#` begins a comment, a quote or any other byte
begins a word, and `;`, `{` and `}` end the call, well or with an error. -/
def inGap (s : Lexer) (ch : UInt8) : Step Lexer Lexeme :=
  if isBlank ch then .next { s with mode := .gap, since := s.since + 1 }
  else if ch = Ch.semicolon ∨ ch = Ch.lbrace then
    if s.words = [] then s.ret (.error (.unexpected ch))
    else if ch = Ch.lbrace then s.ret (.ok .blockStart)
    else s.ret (.ok .ok)
  else if ch = Ch.rbrace then
    if s.words ≠ [] then s.ret (.error (.unexpected ch)) else s.ret (.ok .blockDone)
  else if ch = Ch.sharp then .next { s with mode := .comment, since := 1 }
  else if ch = Ch.backslash then
    .next { s with mode := .word .bare false true, text := [], since := 1 }
  else if ch = Ch.dquote then
    .next { s with mode := .word .double false false, text := [], since := 0 }
  else if ch = Ch.squote then
    .next { s with mode := .word .single false false, text := [], since := 0 }
  else .next { s with mode := .word .bare false false, text := [ch], since := 1 }

/-- A word ends: it is added to those that were read, and for a bare word the byte behind it may
end the call as well. -/
def endWord (s : Lexer) (q : Quote) (ch : UInt8) : Step Lexer Lexeme :=
  let s := { s with words := s.words ++ [s.text], since := s.since + 1 }
  if q ≠ .bare then .next { s with mode := .closed }
  else if ch = Ch.semicolon then s.ret (.ok .ok)
  else if ch = Ch.lbrace then s.ret (.ok .blockStart)
  else .next { s with mode := .gap }

/-- One byte inside a word, not after a backslash. -/
def inWord (s : Lexer) (q : Quote) (var : Bool) (ch : UInt8) : Step Lexer Lexeme :=
  if ch = Ch.lbrace ∧ var = true then
    .next { s with mode := .word q true false, text := s.text ++ [ch], since := s.since + 1 }
  else if ch = Ch.backslash then
    .next { s with mode := .word q false true, since := s.since + 1 }
  else if ch = Ch.dollar then
    .next { s with mode := .word q true false, text := s.text ++ [ch], since := s.since + 1 }
  else if q.Ends ch then s.endWord q ch
  else .next { s with mode := .word q false false, text := s.text ++ [ch], since := s.since + 1 }

/-- One byte after a closing quote, which has to be a blank, a `;`, a `{`, or a `)`. -/
def inClosed (s : Lexer) (ch : UInt8) : Step Lexer Lexeme :=
  if isBlank ch then .next { s with mode := .gap, since := s.since + 1 }
  else if ch = Ch.semicolon then s.ret (.ok .ok)
  else if ch = Ch.lbrace then s.ret (.ok .blockStart)
  else if ch = Ch.rparen then s.inGap ch
  else s.ret (.error (.unexpected ch))

/-- One byte. -/
def read (s : Lexer) (ch : UInt8) : Step Lexer Lexeme :=
  match s.mode with
  | .gap => s.inGap ch
  | .comment =>
    .next { s with mode := if ch = Ch.lf then .gap else .comment, since := s.since + 1 }
  | .closed => s.inClosed ch
  | .word q var true =>
    .next { s with mode := .word q var false, text := s.text ++ decodeEsc ch,
                   since := s.since + 1 }
  | .word q var false => s.inWord q var ch

/-- One byte, unless the limit is reached: then an item has taken up the whole buffer, and the call
reports it. -/
def step (limit : Option Nat) (s : Lexer) (ch : UInt8) : Step Lexer Lexeme :=
  if limit = some s.since then s.ret (.error .tooLong) else s.read ch

/-- The end of the text: well if no word has been begun or read, and otherwise an error. -/
def eof (s : Lexer) : Lexeme :=
  { rc := if s.words = [] ∧ (s.mode = .gap ∨ s.mode = .comment) then .ok .fileDone
          else .error .unfinished
    words := s.words }

end Lexer

namespace Lexer

@[simp] theorem step_none (s : Lexer) (c : UInt8) : s.step none c = s.read c := by
  simp [step]

/-- At the limit the next byte is not looked at. -/
theorem step_at {limit : Option Nat} {s : Lexer} (h : limit = some s.since) (c : UInt8) :
    s.step limit c = s.ret (.error .tooLong) := if_pos h

/-- Away from the limit it makes no difference. -/
theorem step_off {limit : Option Nat} {s : Lexer} (h : limit ≠ some s.since) (c : UInt8) :
    s.step limit c = s.read c := if_neg h

theorem off_of_next {limit : Option Nat} {s s' : Lexer} {c : UInt8}
    (h : s.step limit c = .next s') : limit ≠ some s.since := by
  intro he
  rw [step_at he] at h
  exact absurd h (by simp [ret])

/-- A byte that starts a bare word as itself. -/
def Starts (c : UInt8) : Prop :=
  isBlank c = false ∧ c ≠ Ch.semicolon ∧ c ≠ Ch.lbrace ∧ c ≠ Ch.rbrace ∧ c ≠ Ch.sharp ∧
    c ≠ Ch.backslash ∧ c ≠ Ch.dquote ∧ c ≠ Ch.squote

instance (c : UInt8) : Decidable (Starts c) := inferInstanceAs (Decidable (_ ∧ _))

theorem inGap_starts {c : UInt8} (h : Starts c) (s : Lexer) :
    s.inGap c = .next { s with mode := .word .bare false false, text := [c], since := 1 } := by
  obtain ⟨h1, h2, h3, h4, h5, h6, h7, h8⟩ := h
  simp [inGap, h1, h2, h3, h4, h5, h6, h7, h8]

/-- What a byte between words ends a call with. -/
theorem inGap_done {s : Lexer} {c : UInt8} {o : Lexeme} (h : s.inGap c = .done o) :
    o.words = s.words ∧
      ((s.words ≠ [] ∧ ((c = Ch.semicolon ∧ o.rc = .ok .ok) ∨
          (c = Ch.lbrace ∧ o.rc = .ok .blockStart))) ∨
        (s.words = [] ∧ c = Ch.rbrace ∧ o.rc = .ok .blockDone) ∨
        o.rc = .error (.unexpected c)) := by
  unfold inGap ret at h
  by_cases h1 : isBlank c = true
  · simp [h1] at h
  rw [if_neg h1] at h
  by_cases h2 : c = Ch.semicolon ∨ c = Ch.lbrace
  · rw [if_pos h2] at h
    by_cases hw : s.words = []
    · rw [if_pos hw] at h
      cases h
      exact ⟨rfl, Or.inr (Or.inr rfl)⟩
    · rw [if_neg hw] at h
      by_cases h3 : c = Ch.lbrace
      · rw [if_pos h3] at h
        cases h
        exact ⟨rfl, Or.inl ⟨hw, Or.inr ⟨h3, rfl⟩⟩⟩
      · rw [if_neg h3] at h
        cases h
        exact ⟨rfl, Or.inl ⟨hw, Or.inl ⟨h2.resolve_right h3, rfl⟩⟩⟩
  rw [if_neg h2] at h
  by_cases h3 : c = Ch.rbrace
  · rw [if_pos h3] at h
    by_cases hw : s.words = []
    · rw [if_neg (not_not.mpr hw)] at h
      cases h
      exact ⟨rfl, Or.inr (Or.inl ⟨hw, h3, rfl⟩)⟩
    · rw [if_pos hw] at h
      cases h
      exact ⟨rfl, Or.inr (Or.inr rfl)⟩
  rw [if_neg h3] at h
  by_cases h4 : c = Ch.sharp
  · simp [h4] at h
  rw [if_neg h4] at h
  by_cases h5 : c = Ch.backslash
  · simp [h5] at h
  rw [if_neg h5] at h
  by_cases h6 : c = Ch.dquote
  · simp [h6] at h
  rw [if_neg h6] at h
  by_cases h7 : c = Ch.squote <;> simp [h7] at h

/-- What a byte after a closing quote ends a call with. -/
theorem inClosed_done {s : Lexer} {c : UInt8} {o : Lexeme} (h : s.inClosed c = .done o) :
    o.words = s.words ∧
      ((c = Ch.semicolon ∧ o.rc = .ok .ok) ∨ (c = Ch.lbrace ∧ o.rc = .ok .blockStart) ∨
        o.rc = .error (.unexpected c)) := by
  unfold inClosed ret at h
  by_cases h1 : isBlank c = true
  · simp [h1] at h
  rw [if_neg h1] at h
  by_cases h2 : c = Ch.semicolon
  · rw [if_pos h2] at h
    cases h
    exact ⟨rfl, Or.inl ⟨h2, rfl⟩⟩
  rw [if_neg h2] at h
  by_cases h3 : c = Ch.lbrace
  · rw [if_pos h3] at h
    cases h
    exact ⟨rfl, Or.inr (Or.inl ⟨h3, rfl⟩)⟩
  rw [if_neg h3] at h
  by_cases h4 : c = Ch.rparen
  · -- a `)` starts a word
    have hstart : Starts c := by rw [h4]; decide
    simp [h4 ▸ hstart, inGap_starts, h4] at h
  · rw [if_neg h4] at h
    cases h
    exact ⟨rfl, Or.inr (Or.inr rfl)⟩

/-- What a byte inside a word ends a call with. -/
theorem inWord_done {s : Lexer} {q : Quote} {var : Bool} {c : UInt8} {o : Lexeme}
    (h : s.inWord q var c = .done o) :
    o.words = s.words ++ [s.text] ∧ q = .bare ∧
      ((c = Ch.semicolon ∧ o.rc = .ok .ok) ∨ (c = Ch.lbrace ∧ o.rc = .ok .blockStart)) := by
  unfold inWord at h
  by_cases h1 : c = Ch.lbrace ∧ var = true
  · simp [h1] at h
  rw [if_neg h1] at h
  by_cases h2 : c = Ch.backslash
  · simp [h2] at h
  rw [if_neg h2] at h
  by_cases h3 : c = Ch.dollar
  · simp [h3] at h
  rw [if_neg h3] at h
  by_cases h4 : q.Ends c
  · rw [if_pos h4] at h
    unfold endWord ret at h
    by_cases hq : q = .bare
    · by_cases h5 : c = Ch.semicolon
      · simp only [hq, ne_eq, not_true_eq_false, if_false, h5, if_true] at h
        cases h
        exact ⟨rfl, hq, Or.inl ⟨h5, rfl⟩⟩
      · by_cases h6 : c = Ch.lbrace
        · simp only [hq, ne_eq, not_true_eq_false, if_false, h6, if_true] at h
          cases h
          exact ⟨rfl, hq, Or.inr ⟨h6, rfl⟩⟩
        · simp [hq, h5, h6] at h
    · simp [hq] at h
  · simp [h4] at h

/-- A closing quote has a word before it. -/
def Ok (s : Lexer) : Prop := s.mode = .closed → s.words ≠ []

theorem start_ok : start.Ok := by simp [Ok, start]

/-- How a byte can end a call: a directive ends with words, a block without any, and everything
else is an error that names the byte. -/
theorem read_done {s : Lexer} (hs : s.Ok) {c : UInt8} {o : Lexeme} (h : s.read c = .done o) :
    (o.words ≠ [] ∧ ((c = Ch.semicolon ∧ o.rc = .ok .ok) ∨
        (c = Ch.lbrace ∧ o.rc = .ok .blockStart))) ∨
      (o.words = [] ∧ c = Ch.rbrace ∧ o.rc = .ok .blockDone) ∨
      o.rc = .error (.unexpected c) := by
  unfold read at h
  split at h
  · obtain ⟨hw, h1 | h2 | h3⟩ := inGap_done h
    · exact Or.inl ⟨hw ▸ h1.1, h1.2⟩
    · exact Or.inr (Or.inl ⟨hw.trans h2.1, h2.2⟩)
    · exact Or.inr (Or.inr h3)
  · simp at h
  · rename_i hm
    obtain ⟨hw, h1 | h2 | h3⟩ := inClosed_done h
    · exact Or.inl ⟨hw ▸ hs hm, Or.inl h1⟩
    · exact Or.inl ⟨hw ▸ hs hm, Or.inr h2⟩
    · exact Or.inr (Or.inr h3)
  · simp at h
  · obtain ⟨hw, -, hc⟩ := inWord_done h
    exact Or.inl ⟨by rw [hw]; simp, hc⟩

theorem inGap_next {s s' : Lexer} {c : UInt8} (h : s.inGap c = .next s') :
    s'.since ≤ s.since + 1 ∧ s'.mode ≠ .closed := by
  unfold inGap ret at h
  split_ifs at h <;> cases h <;> simp

theorem inWord_next {s s' : Lexer} {q : Quote} {var : Bool} {c : UInt8}
    (h : s.inWord q var c = .next s') : s'.since = s.since + 1 ∧ s'.Ok := by
  unfold inWord endWord ret at h
  split_ifs at h <;> cases h <;> simp [Ok]

/-- The end of the text is no report either. -/
theorem eof_ne (s : Lexer) : s.eof.rc ≠ .error .tooLong := by
  unfold eof
  simp only
  split_ifs <;> simp

/-- A byte that does not end the call keeps the state in order, and counts at most one. -/
theorem read_next {s s' : Lexer} {c : UInt8} (h : s.read c = .next s') :
    s'.since ≤ s.since + 1 ∧ s'.Ok := by
  have hgap : ∀ {t : Lexer}, s.inGap c = .next t → t.since ≤ s.since + 1 ∧ t.Ok :=
    fun ht => ⟨(inGap_next ht).1, fun hm => absurd hm (inGap_next ht).2⟩
  unfold read at h
  split at h
  · exact hgap h
  · cases h
    refine ⟨Nat.le_refl _, fun hm => ?_⟩
    simp only at hm
    split at hm <;> simp at hm
  · unfold inClosed at h
    split_ifs at h
    · cases h
      exact ⟨Nat.le_refl _, fun hm => absurd hm (by simp)⟩
    · exact absurd h (by simp [ret])
    · exact absurd h (by simp [ret])
    · exact hgap h
    · exact absurd h (by simp [ret])
  · cases h
    exact ⟨Nat.le_refl _, fun hm => absurd hm (by simp)⟩
  · obtain ⟨h1, h2⟩ := inWord_next h
    exact ⟨Nat.le_of_eq h1, h2⟩

end Lexer

/-- One call on a stream: the lexeme, and the bytes left, which the next call reads. -/
def lex (limit : Option Nat) (text : List UInt8) : Lexeme × List UInt8 :=
  Loop.feed (Lexer.step limit) Lexer.eof Lexer.start text

/-! ## 2. The lexer byte by byte

One lemma for each mode and each kind of byte.  They are all the later proofs use of the
definitions above. -/

/-- The byte that opens and closes a quoted word. -/
inductive Quote.Mark : Quote → UInt8 → Prop
  | single : Quote.Mark .single Ch.squote
  | double : Quote.Mark .double Ch.dquote

namespace Lexer

variable {s : Lexer} {q : Quote} {b c : UInt8} {var : Bool}

theorem read_gap (hm : s.mode = .gap) : s.read c = s.inGap c := by
  simp only [read, hm]

theorem read_closed (hm : s.mode = .closed) : s.read c = s.inClosed c := by
  simp only [read, hm]

theorem read_word (hm : s.mode = .word q var false) : s.read c = s.inWord q var c := by
  simp only [read, hm]

/-- The byte after a backslash. -/
theorem read_esc (hm : s.mode = .word q var true) :
    s.read c = .next { s with mode := .word q var false, text := s.text ++ decodeEsc c,
                              since := s.since + 1 } := by
  simp only [read, hm]

theorem inGap_blank (hc : isBlank c = true) :
    s.inGap c = .next { s with mode := .gap, since := s.since + 1 } := if_pos hc

theorem inGap_sharp : s.inGap Ch.sharp = .next { s with mode := .comment, since := 1 } := by
  simp +decide [inGap]

theorem inGap_open (hb : q.Mark b) :
    s.inGap b = .next { s with mode := .word q false false, text := [], since := 0 } := by
  cases hb <;> simp +decide [inGap]

theorem inClosed_blank (hc : isBlank c = true) :
    s.inClosed c = .next { s with mode := .gap, since := s.since + 1 } := if_pos hc

theorem inWord_backslash : s.inWord q var Ch.backslash
    = .next { s with mode := .word q false true, since := s.since + 1 } := by
  simp +decide [inWord]

theorem inWord_close (hb : q.Mark b) :
    s.inWord q var b
      = .next { s with mode := .closed, words := s.words ++ [s.text], since := s.since + 1 } := by
  cases hb <;> simp +decide [inWord, endWord]

/-- A byte that neither ends the word nor escapes the next one is added to the text. -/
theorem inWord_plain (hback : c ≠ Ch.backslash) (hends : ¬ q.Ends c) :
    ∃ v, s.inWord q var c
      = .next { s with mode := .word q v false, text := s.text ++ [c], since := s.since + 1 } := by
  by_cases h1 : c = Ch.lbrace ∧ var = true
  · exact ⟨true, by rw [inWord, if_pos h1]⟩
  · by_cases h2 : c = Ch.dollar
    · exact ⟨true, by rw [inWord, if_neg h1, if_neg hback, if_pos h2]⟩
    · exact ⟨false, by rw [inWord, if_neg h1, if_neg hback, if_neg h2, if_neg hends]⟩

end Lexer

/-! ## 3. Escapes, one byte at a time

Decoding is a fold over the raw bytes of a word, with one bit for a pending backslash.  The lexer
keeps the decoded text as it goes, and this is what it keeps; taken from the other end
(`decode_cons_plain`, `decode_cons_escape`), it is what the second pass of the code does. -/

/-- The decoded text so far and whether a backslash is pending, one byte later. -/
def decodeByte (d : List UInt8 × Bool) (ch : UInt8) : List UInt8 × Bool :=
  if d.2 then (d.1 ++ decodeEsc ch, false)
  else if ch = Ch.backslash then (d.1, true)
  else (d.1 ++ [ch], false)

/-- The decoded text of the raw bytes of a word, and whether a backslash is pending. -/
def decode (raw : List UInt8) : List UInt8 × Bool := raw.foldl decodeByte ([], false)

theorem decode_append_singleton (raw : List UInt8) (ch : UInt8) :
    decode (raw ++ [ch]) = decodeByte (decode raw) ch := by
  simp [decode, List.foldl_append]

/-- What was decoded before stays in front. -/
theorem foldl_decodeByte (raw : List UInt8) : ∀ (pre : List UInt8) (esc : Bool),
    raw.foldl decodeByte (pre, esc)
      = (pre ++ (raw.foldl decodeByte ([], esc)).1, (raw.foldl decodeByte ([], esc)).2) := by
  induction raw with
  | nil => intro pre esc; simp
  | cons c raw ih =>
    intro pre esc
    simp only [List.foldl_cons]
    rcases esc with _ | _
    · by_cases hc : c = Ch.backslash
      · simp only [decodeByte, hc, Bool.false_eq_true, if_false, if_true]
        exact ih pre true
      · simp only [decodeByte, hc, Bool.false_eq_true, if_false, List.nil_append]
        rw [ih (pre ++ [c]) false, ih [c] false]
        simp
    · simp only [decodeByte, if_true, List.nil_append]
      rw [ih (pre ++ decodeEsc c) false, ih (decodeEsc c) false]
      simp

theorem decode_cons_plain {c : UInt8} (hc : c ≠ Ch.backslash) (raw : List UInt8) :
    decode (c :: raw) = (c :: (decode raw).1, (decode raw).2) := by
  have hfirst : decodeByte ([], false) c = ([c], false) := by simp [decodeByte, hc]
  simp only [decode, List.foldl_cons, hfirst]
  rw [foldl_decodeByte raw [c] false]
  simp

/-- A backslash and the byte behind it are decoded together, and the rest by itself. -/
theorem decode_cons_escape (e : UInt8) (raw : List UInt8) :
    decode (Ch.backslash :: e :: raw) = (decodeEsc e ++ (decode raw).1, (decode raw).2) := by
  have hfirst : decodeByte ([], false) Ch.backslash = ([], true) := by simp [decodeByte]
  have hsecond : decodeByte ([], true) e = (decodeEsc e, false) := by simp [decodeByte]
  simp only [decode, List.foldl_cons, hfirst, hsecond]
  rw [foldl_decodeByte raw (decodeEsc e) false]

/-! ## 4. The second pass of the code

The copy advances by one or two bytes and tests its end before each round only.  It ends where it
should because the scanner has gone over the same bytes: a word ends when no backslash is pending,
so the last round of the copy is not one that takes two bytes (`copyLoop_eq`). -/

/-- The bytes of a list from `start` up to `stop`. -/
def slice (mem : List UInt8) (start stop : Nat) : List UInt8 := (mem.drop start).take (stop - start)

theorem slice_self (mem : List UInt8) (n : Nat) : slice mem n n = [] := by simp [slice]

theorem slice_length {mem : List UInt8} {start stop : Nat} (h : stop ≤ mem.length) :
    (slice mem start stop).length = stop - start := by
  simp only [slice, List.length_take, List.length_drop]
  omega

/-- A slice starts with the byte at its start. -/
theorem slice_cons {mem : List UInt8} {start stop : Nat} (h : start < stop)
    (hle : stop ≤ mem.length) :
    slice mem start stop = mem.getD start 0 :: slice mem (start + 1) stop := by
  have hlt : start < mem.length := by omega
  unfold slice
  rw [List.drop_eq_getElem_cons hlt, show stop - start = (stop - (start + 1)) + 1 by omega,
    List.take_succ_cons, List.getD_eq_getElem?_getD, List.getElem?_eq_getElem hlt,
    Option.getD_some]

/-- A slice ends with the byte before its end. -/
theorem slice_snoc {mem : List UInt8} {start stop : Nat} {c : UInt8} (hle : start ≤ stop)
    (hc : mem[stop]? = some c) : slice mem start (stop + 1) = slice mem start stop ++ [c] := by
  have hget : (mem.drop start)[stop - start]? = some c := by
    rw [List.getElem?_drop, show start + (stop - start) = stop by omega, hc]
  unfold slice
  rw [show stop + 1 - start = (stop - start) + 1 by omega, List.take_add_one, hget]
  rfl

/-- The copy loop writes what decoding the slice yields, and stops at its end.  The hypothesis that
no backslash is pending is what the scanner provides. -/
theorem copyLoop_eq {mem : List UInt8} {stop : Nat} (hstop : stop ≤ mem.length) :
    ∀ {n src : Nat} {text : List UInt8}, src ≤ stop → stop - src ≤ n →
      decode (slice mem src stop) = (text, false) → copyLoop mem stop n src = (text, stop)
  | 0, src, text, hle, hn, hdec => by
    obtain rfl : src = stop := by omega
    rw [slice_self] at hdec
    simp only [decode, List.foldl_nil, Prod.mk.injEq, and_true] at hdec
    simp [copyLoop, hdec]
  | n + 1, src, text, hle, hn, hdec => by
    by_cases hlt : src < stop
    · rw [slice_cons hlt hstop] at hdec
      simp only [copyLoop, if_pos hlt, copyByte]
      by_cases hc : mem.getD src 0 = Ch.backslash
      · -- a backslash is never the last byte, so there is a next one to look at
        have hlt' : src + 1 < stop := by
          by_contra hge
          obtain rfl : src + 1 = stop := by omega
          rw [slice_self, hc] at hdec
          simp [decode, decodeByte] at hdec
        have hsl := slice_cons hlt' hstop
        rw [hc, hsl, decode_cons_escape] at hdec
        simp only [Prod.mk.injEq] at hdec
        obtain ⟨htext, hesc⟩ := hdec
        simp only [hc, if_true]
        generalize he : mem.getD (src + 1) 0 = e at htext hsl
        have htwo : ∀ x, decodeEsc e = [x] →
            (let r := copyLoop mem stop n (src + 2); (x :: r.1, r.2)) = (text, stop) := by
          intro x hx
          have hrec := copyLoop_eq hstop (n := n)
            (by omega) (by omega)
            (Prod.ext rfl hesc)
          rw [hrec, ← htext, hx]
          rfl
        by_cases h1 : e = Ch.dquote ∨ e = Ch.squote ∨ e = Ch.backslash
        · simp only [if_pos h1]
          exact htwo e (by rw [decodeEsc, if_pos h1])
        · by_cases h2 : e = Ch.t
          · simp only [if_neg h1, if_pos h2]
            exact htwo Ch.tab (by rw [decodeEsc, if_neg h1, if_pos h2])
          · by_cases h3 : e = Ch.r
            · simp only [if_neg h1, if_neg h2, if_pos h3]
              exact htwo Ch.cr (by rw [decodeEsc, if_neg h1, if_neg h2, if_pos h3])
            · by_cases h4 : e = Ch.n
              · simp only [if_neg h1, if_neg h2, if_neg h3, if_pos h4]
                exact htwo Ch.lf (by rw [decodeEsc, if_neg h1, if_neg h2, if_neg h3, if_pos h4])
              · -- both bytes are copied, the second one in the next round
                simp only [if_neg h1, if_neg h2, if_neg h3, if_neg h4]
                have hplain : e ≠ Ch.backslash := fun h => h1 (Or.inr (Or.inr h))
                have hnext : decode (slice mem (src + 1) stop)
                    = (e :: (decode (slice mem (src + 2) stop)).1, false) := by
                  rw [hsl, decode_cons_plain hplain, hesc]
                have hrec := copyLoop_eq hstop (n := n) (by omega) (by omega) hnext
                rw [hrec, ← htext, decodeEsc, if_neg h1, if_neg h2, if_neg h3, if_neg h4]
                rfl
      · rw [decode_cons_plain hc] at hdec
        simp only [Prod.mk.injEq] at hdec
        obtain ⟨htext, hesc⟩ := hdec
        simp only [if_neg hc]
        have hrec := copyLoop_eq hstop (n := n)
          (by omega) (by omega)
          (Prod.ext rfl hesc)
        rw [hrec, ← htext]
    · obtain rfl : src = stop := by omega
      rw [slice_self] at hdec
      simp only [decode, List.foldl_nil, Prod.mk.injEq, and_true] at hdec
      simp [copyLoop, hdec]

/-- A word of `cf->args` that holds a given text. -/
def Word.of (text : List UInt8) : Word := { len := text.length, data := text ++ [0] }

/-- The two passes agree: what is copied is what the scanner's decoding yields. -/
theorem copyWord_eq {mem : List UInt8} {start stop : Nat} (hstop : stop ≤ mem.length)
    (hle : start ≤ stop) {text : List UInt8} (h : decode (slice mem start stop) = (text, false)) :
    copyWord mem start stop = Word.of text := by
  simp only [copyWord, copyLoop_eq hstop hle (Nat.le_refl _) h, Word.of]

end Capwap
