/-
# The tokenizer refines the lexer

`cw_conf_read_token` keeps the bytes from `start` on in its buffer, compacts and refills it,
and reads words out of it in a second pass.  The relation `Sim` says what that comes to: the
bytes in the buffer from `pos` on, followed by the part of the file behind `offset`, are the
text still to come; the flags are those of the lexer's mode; and the bytes between `start` and
`pos` decode to the lexer's current word.

A refill changes the buffer, `start`, `pos` and `offset`, and keeps the relation
(`Sim.refill_next`); a byte keeps it in lockstep with the lexer (section 4).  The refinement
rule of `Lib/Loop.lean` then gives the whole call (`readToken_refines`).  A file differs from a
text in memory only in the lexer's limit: `len == CW_CONF_BUFFER` can be seen at the end of the
buffer only when the buffer holds nothing but the current item.
-/
import Capwap.Conf.Lexer

namespace Capwap

/-! ## 1. Where a text comes from

A text is in a file or in memory, and in the middle of a call some of it is in the buffer.  `Holds`
says that what is left of the buffer and of the file, put together, is the text still to come.  For
a file it also says that reads deliver what the file has; the theorems of this module are about
calls in which nothing fails, and `Conf/Reliable.lean` goes back to those in which something
may. -/

/-- A text: the limit it is read under, the file's content and descriptor, and for a text in
memory the bytes of its buffer. -/
structure Source where
  limit : Option Nat
  content : List UInt8
  fd : Int
  text : List UInt8

/-- An open file. -/
def Source.file (fd : Int) (content : List UInt8) : Source := ⟨some confBuffer, content, fd, []⟩

/-- A text in memory, as `cw_conf_param` sets it up. -/
def Source.memory (text : List UInt8) : Source := ⟨none, [], invalidFile, text⟩

/-- Every allocation for a word succeeds, and pushing one does.  The theorems of this module are
about such systems. -/
structure Sys.Allocates {σ : Type} (S : Sys σ) : Prop where
  push : ∀ w, (S.arrayPush w).1 = true
  data : ∀ n w, (S.pnalloc n w).1 = true

/-- Every read of the file returns the bytes requested, as far as the file has them. -/
def Sys.Serves {σ : Type} (S : Sys σ) (fd : Int) (content : List UInt8) : Prop :=
  ∀ n off w, (S.pread fd n off w).1 = some ((content.drop off).take n)

/-- The text still to come: in the buffer and in the file.  The two kinds of text differ in the
last clause only. -/
structure ConfFile.Holds {σ : Type} (S : Sys σ) (src : Source) (conf : ConfFile)
    (rest : List UInt8) : Prop where
  fd_eq : conf.file.fd = src.fd
  size_eq : conf.file.size = src.content.length
  offset_le : conf.file.offset ≤ src.content.length
  pos_le : conf.buffer.pos ≤ conf.buffer.bytes.length
  rest_eq : rest = conf.buffer.bytes.drop conf.buffer.pos ++ src.content.drop conf.file.offset
  kind : (src.limit = none ∧ src.content = [] ∧ conf.buffer.bytes = src.text) ∨
    (src.limit = some confBuffer ∧ conf.buffer.cap = confBuffer ∧
      conf.buffer.bytes.length ≤ confBuffer ∧ S.Serves src.fd src.content)

theorem ConfFile.Holds.length_eq {σ : Type} {S : Sys σ} {src : Source} {conf : ConfFile}
    {rest : List UInt8} (h : conf.Holds S src rest) : rest.length = conf.unread := by
  rw [h.rest_eq, ConfFile.unread, h.size_eq]
  simp

/-! ## 2. The relation

What the loop and the lexer have in common between two bytes.  The flags of the loop are a function
of the lexer's mode, so the relation leaves no choice; the current word is on one side raw, between
`start` and `pos`, and on the other decoded. -/

/-- The flags of a mode. -/
def Mode.flags : Mode → Flags
  | .gap => .start
  | .comment => { Flags.start with sharpComment := true }
  | .word q var esc =>
    { Flags.start with lastSpace := false, var := var, quoted := esc, sQuoted := q == .single,
                       dQuoted := q == .double }
  | .closed => { Flags.start with needSpace := true, lastSpace := false }

/-- The bytes from `start` up to `pos`. -/
def Tok.raw {σ : Type} (t : Tok σ) : List UInt8 :=
  slice t.conf.buffer.bytes t.start t.conf.buffer.pos

/-- The loop and the lexer stand at the same place of the text.  `whole` is the text at the entry,
and `lines` what `line` will be when all of it has been read; both are there for what a call
reports. -/
structure Sim {σ : Type} (S : Sys σ) (src : Source) (whole : List UInt8) (lines : Nat)
    (t : Tok σ) (s : Lexer) (rest : List UInt8) : Prop where
  holds : t.conf.Holds S src rest
  flags : t.flags = s.mode.flags
  args : t.args = s.words.map Word.of
  start_le : t.start ≤ t.conf.buffer.pos
  since : s.since = t.conf.buffer.pos - t.start
  decoded : ∀ q var esc, s.mode = .word q var esc → decode t.raw = (s.text, esc)
  whole_eq : ∃ before, whole = before ++ t.raw ++ rest
  line : t.conf.line + rest.count Ch.lf = lines

/-- The code and the lexer agree on the outcome: the same code, or an error for the same reason.  A
report of a parameter that is too long names `CW_CONF_BUFFER` bytes of the text. -/
inductive Agrees (src : Source) (whole : List UInt8) :
    Except TokenError Rc → Except LexError Rc → Prop
  | ok (rc : Rc) : Agrees src whole (.ok rc) (.ok rc)
  | unexpected (ch : UInt8) :
      Agrees src whole (.error (.unexpected ch)) (.error (.unexpected ch))
  | unfinished : Agrees src whole (.error (.unexpectedEnd (src.fd == invalidFile)))
      (.error .unfinished)
  | tooLong (quote : Option UInt8) (kept before rest : List UInt8)
      (hlen : kept.length = confBuffer) (hwhole : whole = before ++ kept ++ rest) :
      Agrees src whole (.error (.tooLong quote kept)) (.error .tooLong)

/-- The results of a call: the outcomes agree, the words are those of the lexemes, and the text
still to come is the rest. -/
structure Same {σ : Type} (S : Sys σ) (src : Source) (whole : List UInt8) (lines : Nat)
    (r : TokenResult σ) (o : Lexeme) (rest : List UInt8) : Prop where
  rc : Agrees src whole r.rc o.rc
  args : r.args = o.words.map Word.of
  held : ∃ rest', r.conf.Holds S src rest' ∧ rest' <:+ whole
  conf : o.rc ≠ .error .tooLong →
    r.conf.Holds S src rest ∧ r.conf.line + rest.count Ch.lf = lines

section
variable {σ : Type} {S : Sys σ} {src : Source} {whole rest cs : List UInt8} {lines : Nat}
variable {t : Tok σ} {s : Lexer} {c : UInt8}

/-- Returning where the two stand. -/
theorem Sim.ret (h : Sim S src whole lines t s rest) {rc : Except TokenError Rc}
    {rc' : Except LexError Rc} (hrc : Agrees src whole rc rc') :
    Same S src whole lines ⟨rc, t.args, t.conf, t.world⟩ ⟨rc', s.words⟩ rest := by
  obtain ⟨before, hwhole⟩ := h.whole_eq
  exact ⟨hrc, h.args, ⟨rest, h.holds, ⟨_, hwhole.symm⟩⟩, fun _ => ⟨h.holds, h.line⟩⟩

/-! ## 3. Refilling

The only step that the lexer does not see.  A refill keeps the bytes from `start` on and moves
them, so their distance to `pos` stays (`since`), and reads as much as fits.  It gives up when
nothing fits: then the buffer holds `CW_CONF_BUFFER` bytes of one item, and so has the lexer
counted. -/

/-- In the middle of the buffer the next byte is at `pos`. -/
theorem ConfFile.Holds.head {conf : ConfFile} (h : conf.Holds S src (c :: cs))
    (hlt : conf.buffer.pos < conf.buffer.bytes.length) :
    conf.buffer.bytes[conf.buffer.pos]? = some c := by
  have hrest := h.rest_eq
  rw [List.drop_eq_getElem_cons hlt, List.cons_append, List.cons.injEq] at hrest
  rw [List.getElem?_eq_getElem hlt, ← hrest.1]

/-- At the end of the buffer the rest is in the file, and the file has not been used up. -/
theorem ConfFile.Holds.at_last {conf : ConfFile} (h : conf.Holds S src (c :: cs))
    (hge : conf.buffer.pos ≥ conf.buffer.bytes.length) :
    src.content.drop conf.file.offset = c :: cs ∧ conf.file.offset < src.content.length ∧
      src.limit = some confBuffer ∧ conf.buffer.cap = confBuffer ∧
      conf.buffer.bytes.length ≤ confBuffer ∧ S.Serves src.fd src.content := by
  have hrest := h.rest_eq
  rw [List.drop_eq_nil_of_le hge, List.nil_append] at hrest
  have hlt : conf.file.offset < src.content.length := by
    by_contra hle
    rw [List.drop_eq_nil_of_le (by omega)] at hrest
    exact absurd hrest (by simp)
  refine ⟨hrest.symm, hlt, ?_⟩
  rcases h.kind with ⟨-, hnil, -⟩ | hfile
  · rw [hnil] at hlt
    exact absurd hlt (by simp)
  · exact hfile

/-- When the limit is not reached, the next byte is brought into the buffer. -/
theorem Sim.refill_next (h : Sim S src whole lines t s (c :: cs))
    (hlimit : src.limit ≠ some s.since) :
    ∃ t', refill S t = .next t' ∧ Sim S src whole lines t' s (c :: cs) ∧
      t'.conf.buffer.bytes[t'.conf.buffer.pos]? = some c := by
  by_cases hlt : t.conf.buffer.pos < t.conf.buffer.bytes.length
  · refine ⟨t, ?_, h, h.holds.head hlt⟩
    unfold refill
    rw [if_neg (by omega)]
  · obtain ⟨hrest, hoff, hlim, hcap, hlen, hserves⟩ := h.holds.at_last (by omega)
    have hpos := h.holds.pos_le
    have hstart := h.start_le
    have hsince := h.since
    have hroom : t.conf.buffer.pos - t.start < confBuffer := by
      rw [hlim] at hlimit
      have : confBuffer ≠ s.since := fun he => hlimit (by rw [he])
      omega
    -- what is read
    obtain ⟨size, hsize⟩ : ∃ n, n = (if t.conf.file.size - t.conf.file.offset
        > t.conf.buffer.cap - (t.conf.buffer.pos - t.start)
        then t.conf.buffer.cap - (t.conf.buffer.pos - t.start)
        else t.conf.file.size - t.conf.file.offset) := ⟨_, rfl⟩
    have hbound : 0 < size ∧ size ≤ src.content.length - t.conf.file.offset ∧
        (t.conf.buffer.pos - t.start) + size ≤ confBuffer := by
      rw [hcap, h.holds.size_eq] at hsize
      split at hsize <;> omega
    have hread := hserves size t.conf.file.offset t.world
    have hn : ((src.content.drop t.conf.file.offset).take size).length = size := by
      rw [List.length_take, List.length_drop]
      omega
    have hkept : ((t.conf.buffer.bytes.drop t.start).take
        (t.conf.buffer.pos - t.start)).length = t.conf.buffer.pos - t.start := by
      rw [List.length_take, List.length_drop]
      omega
    cases hp : S.pread src.fd size t.conf.file.offset t.world with
    | mk ans w =>
      rw [hp] at hread
      simp only at hread
      subst hread
      have hraw : slice ((t.conf.buffer.bytes.drop t.start).take (t.conf.buffer.pos - t.start)
          ++ (src.content.drop t.conf.file.offset).take size) 0
            (t.conf.buffer.pos - t.start) = t.raw := by
        simp only [slice, Tok.raw, List.drop_zero, Nat.sub_zero]
        rw [List.take_append_of_le_length (by omega), List.take_of_length_le (by omega)]
      have hstep : refill S t = .next { t with
          start := 0
          conf := { t.conf with
            file := { t.conf.file with offset := t.conf.file.offset + size }
            buffer := { bytes := (t.conf.buffer.bytes.drop t.start).take
                          (t.conf.buffer.pos - t.start)
                          ++ (src.content.drop t.conf.file.offset).take size
                        pos := t.conf.buffer.pos - t.start
                        cap := t.conf.buffer.cap } }
          world := w } := by
        unfold refill
        rw [if_pos (by omega), if_neg (by rw [h.holds.size_eq]; omega)]
        simp only [← hsize, readFile, h.holds.fd_eq, hp, hn]
        rw [if_neg (by omega), if_neg (by omega)]
      refine ⟨_, hstep, ⟨⟨h.holds.fd_eq, h.holds.size_eq, ?_, ?_, ?_, Or.inr ⟨hlim, hcap, ?_,
        hserves⟩⟩, h.flags, h.args, Nat.zero_le _, ?_, ?_, ?_, h.line⟩, ?_⟩
      · simp only; omega
      · simp only [List.length_append, hkept]; omega
      · simp only
        rw [List.drop_append_of_le_length (by omega), List.drop_of_length_le (by omega),
          List.nil_append, ← List.drop_drop, List.take_append_drop, hrest]
      · simp only [List.length_append, hkept, hn]; omega
      · simp only; omega
      · exact fun q var esc hm => (congrArg decode hraw).trans (h.decoded q var esc hm)
      · obtain ⟨before, hwhole⟩ := h.whole_eq
        exact ⟨before, hwhole.trans (congrArg (before ++ · ++ c :: cs) hraw).symm⟩
      · simp only
        rw [List.getElem?_append_right (by omega), hkept, Nat.sub_self, List.getElem?_take,
          if_pos (by omega), hrest]
        rfl

/-- When the limit is reached and a byte follows, the buffer is full of the current item, and the
report names it. -/
theorem Sim.refill_tooLong (h : Sim S src whole lines t s (c :: cs))
    (hlimit : src.limit = some s.since) :
    ∃ r, refill S t = .done r ∧
      Same S src whole lines r ⟨.error .tooLong, s.words⟩ cs := by
  have hpos := h.holds.pos_le
  have hstart := h.start_le
  have hsince := h.since
  rcases h.holds.kind with ⟨hnone, -⟩ | ⟨hlim, -, hlen, -⟩
  · rw [hnone] at hlimit
    exact absurd hlimit (by simp)
  · rw [hlim, Option.some.injEq] at hlimit
    obtain ⟨-, hoff, -⟩ := h.holds.at_last (by omega)
    have hfull : t.conf.buffer.pos - t.start = confBuffer := by omega
    obtain ⟨before, hwhole⟩ := h.whole_eq
    have hraw : t.raw.length = confBuffer := by
      unfold Tok.raw
      rw [slice_length hpos]
      exact hfull
    unfold refill
    rw [if_pos (by omega), if_neg (by rw [h.holds.size_eq]; omega)]
    simp only [if_pos hfull, Tok.fail]
    have hheld : ({ t.conf with line := t.startLine } : ConfFile).Holds S src (c :: cs) :=
      ⟨h.holds.fd_eq, h.holds.size_eq, h.holds.offset_le, h.holds.pos_le, h.holds.rest_eq,
        h.holds.kind⟩
    exact ⟨_, rfl, Agrees.tooLong _ t.raw before (c :: cs) hraw hwhole, h.args,
      ⟨_, hheld, ⟨_, hwhole.symm⟩⟩, fun hne => absurd rfl hne⟩

/-- The end of the text: the loop reports the end of the file or an unexpected end, as the lexer
does. -/
theorem Sim.refill_end (h : Sim S src whole lines t s []) :
    ∃ r, refill S t = .done r ∧ Same S src whole lines r s.eof [] := by
  have hrest := h.holds.rest_eq
  have hpos := h.holds.pos_le
  obtain ⟨hbuf, hfile⟩ := List.append_eq_nil_iff.mp hrest.symm
  have hge := List.drop_eq_nil_iff.mp hbuf
  have hoff := List.drop_eq_nil_iff.mp hfile
  have hlast : t.flags.lastSpace = false ↔ ¬ (s.mode = .gap ∨ s.mode = .comment) := by
    rw [h.flags]
    cases s.mode <;> simp [Mode.flags, Flags.start]
  have hwords : t.args.length > 0 ↔ ¬ s.words = [] := by
    rw [h.args, List.length_map]
    exact List.length_pos_iff
  unfold refill
  rw [if_pos (by omega), if_pos (by rw [h.holds.size_eq]; omega)]
  by_cases hdone : s.words = [] ∧ (s.mode = .gap ∨ s.mode = .comment)
  · rw [if_neg (by rw [hwords, hlast]; tauto)]
    refine ⟨_, rfl, ?_⟩
    unfold Lexer.eof
    rw [if_pos hdone]
    exact h.ret (Agrees.ok .fileDone)
  · rw [if_pos (by rw [hwords, hlast]; tauto)]
    refine ⟨_, rfl, ?_⟩
    unfold Lexer.eof
    rw [if_neg hdone, h.holds.fd_eq]
    exact h.ret Agrees.unfinished

/-! ## 4. One byte

For each mode of the lexer the flags are known, and with them which branch of the scanner a byte
takes.  What a branch does to the state is one of five moves, each with a lemma (`Sim.scan_go`,
`Sim.scan_mark`, `Sim.scan_ret`, `Sim.scan_fail`, `Sim.scan_word`); the case analysis then only
matches bytes with moves. -/

/-- The file's state after the byte at `pos`. -/
def ConfFile.advance (conf : ConfFile) (ch : UInt8) : ConfFile :=
  { conf with
    buffer := { conf.buffer with pos := conf.buffer.pos + 1 }
    line := if ch = Ch.lf then conf.line + 1 else conf.line }

theorem ConfFile.Holds.advance {conf : ConfFile} (h : conf.Holds S src (c :: cs))
    (hc : conf.buffer.bytes[conf.buffer.pos]? = some c) : (conf.advance c).Holds S src cs := by
  obtain ⟨hlt, -⟩ := List.getElem?_eq_some_iff.mp hc
  refine ⟨h.fd_eq, h.size_eq, h.offset_le, hlt, ?_, h.kind⟩
  have hrest := h.rest_eq
  rw [List.drop_eq_getElem_cons hlt, List.cons_append, List.cons.injEq] at hrest
  exact hrest.2

theorem line_advance (conf : ConfFile) (c : UInt8) (cs : List UInt8) :
    (conf.advance c).line + cs.count Ch.lf = conf.line + (c :: cs).count Ch.lf := by
  simp only [ConfFile.advance, List.count_cons]
  by_cases hc : c = Ch.lf
  · rw [if_pos hc, if_pos (by rw [hc]; rfl)]
    omega
  · rw [if_neg hc, if_neg (by simpa using hc)]
    omega

/-- Going on in the current item. -/
theorem Sim.go (h : Sim S src whole lines t s (c :: cs))
    (hc : t.conf.buffer.bytes[t.conf.buffer.pos]? = some c) {m : Mode} (text : List UInt8)
    (hdec : ∀ q var esc, m = .word q var esc → decodeByte (decode t.raw) c = (text, esc)) :
    Sim S src whole lines { t with flags := m.flags, conf := t.conf.advance c }
      { s with mode := m, text := text, since := s.since + 1 } cs := by
  have hraw : slice t.conf.buffer.bytes t.start (t.conf.buffer.pos + 1) = t.raw ++ [c] :=
    slice_snoc h.start_le hc
  have hstart := h.start_le
  have hsince := h.since
  refine ⟨h.holds.advance hc, rfl, h.args, ?_, ?_, ?_, ?_, ?_⟩
  · simp only [ConfFile.advance]; omega
  · simp only [ConfFile.advance]; omega
  · intro q var esc hm
    exact (congrArg decode hraw).trans ((decode_append_singleton _ _).trans (hdec q var esc hm))
  · obtain ⟨before, hwhole⟩ := h.whole_eq
    refine ⟨before, Eq.trans ?_ (congrArg (before ++ · ++ cs) hraw).symm⟩
    rw [hwhole]
    simp
  · rw [← h.line]
    exact line_advance t.conf c cs

/-- Starting an item at this byte (`skip` 0) or behind it (`skip` 1). -/
theorem Sim.mark (h : Sim S src whole lines t s (c :: cs))
    (hc : t.conf.buffer.bytes[t.conf.buffer.pos]? = some c) {m : Mode} {text : List UInt8}
    {skip : Nat} (hskip : skip ≤ 1)
    (hdec : ∀ q var esc, m = .word q var esc →
      (if skip = 0 then decodeByte ([], false) c else ([], false)) = (text, esc)) :
    Sim S src whole lines
      { t with flags := m.flags, conf := t.conf.advance c, start := t.conf.buffer.pos + skip,
               startLine := (t.conf.advance c).line }
      { s with mode := m, text := text, since := 1 - skip } cs := by
  have hone : slice t.conf.buffer.bytes t.conf.buffer.pos (t.conf.buffer.pos + 1) = [c] := by
    rw [slice_snoc (Nat.le_refl _) hc, slice_self]
    rfl
  have hraw : slice t.conf.buffer.bytes (t.conf.buffer.pos + skip) (t.conf.buffer.pos + 1)
      = if skip = 0 then [c] else [] := by
    split
    · rename_i h0
      rw [h0, Nat.add_zero, hone]
    · rw [show skip = 1 by omega, slice_self]
  refine ⟨h.holds.advance hc, rfl, h.args, ?_, ?_, ?_, ?_, ?_⟩
  · simp only [ConfFile.advance]; omega
  · simp only [ConfFile.advance]; omega
  · intro q var esc hm
    refine (congrArg decode hraw).trans ?_
    rw [← hdec q var esc hm]
    split <;> rfl
  · obtain ⟨before, hwhole⟩ := h.whole_eq
    refine ⟨before ++ t.raw ++ (if skip = 0 then [] else [c]),
      Eq.trans ?_ (congrArg (_ ++ · ++ cs) hraw).symm⟩
    rw [hwhole]
    split <;> simp
  · rw [← h.line]
    exact line_advance t.conf c cs

/-- A finished word is pushed. -/
theorem Sim.push (h : Sim S src whole lines t s rest) {text : List UInt8} {w : Word}
    (hw : w = Word.of text) {world : σ} :
    Sim S src whole lines { t with args := t.args ++ [w], world := world }
      { s with words := s.words ++ [text] } rest :=
  { h with args := by simp [h.args, hw] }

/-- The loop and the lexer after the same byte: both go on and are related again, or both are done
with results that agree. -/
inductive Lockstep (S : Sys σ) (src : Source) (whole : List UInt8) (lines : Nat)
    (cs : List UInt8) : Step (Tok σ) (TokenResult σ) → Step Lexer Lexeme → Prop
  | next {t : Tok σ} {s : Lexer} (h : Sim S src whole lines t s cs) :
      Lockstep S src whole lines cs (.next t) (.next s)
  | done {r : TokenResult σ} {o : Lexeme} (h : Same S src whole lines r o cs) :
      Lockstep S src whole lines cs (.done r) (.done o)

/-- The loop after the byte at `pos` has led to a move. -/
def Tok.after (S : Sys σ) (t : Tok σ) (ch : UInt8) (f : Flags) :
    Move → Step (Tok σ) (TokenResult σ)
  | .go => .next { t with flags := f, conf := t.conf.advance ch }
  | .mark skip => .next { t with flags := f, conf := t.conf.advance ch,
                                 start := t.conf.buffer.pos + skip,
                                 startLine := (t.conf.advance ch).line }
  | .word => pushWord S { t with flags := f, conf := t.conf.advance ch } t.conf.buffer.pos ch
  | .ret rc => Tok.ret { t with flags := f, conf := t.conf.advance ch } rc
  | .fail => Tok.fail { t with flags := f, conf := t.conf.advance ch } (.unexpected ch)

/-- One round, once it is known what the byte does to the flags. -/
theorem scan_eq (S : Sys σ) {f : Flags} {mv : Move}
    (hc : t.conf.buffer.bytes[t.conf.buffer.pos]? = some c)
    (hb : scanByte t.flags t.args.length c = (f, mv)) : scan S t = t.after S c f mv := by
  unfold scan
  simp only [hc, hb]
  cases mv <;> rfl

theorem Sim.scan_go (h : Sim S src whole lines t s (c :: cs))
    (hc : t.conf.buffer.bytes[t.conf.buffer.pos]? = some c) {m : Mode} {text : List UInt8}
    (hb : scanByte t.flags t.args.length c = (m.flags, .go))
    (hdec : ∀ q var esc, m = .word q var esc → decodeByte (decode t.raw) c = (text, esc)) :
    Lockstep S src whole lines cs (scan S t)
      (.next { s with mode := m, text := text, since := s.since + 1 }) := by
  rw [scan_eq S hc hb]
  exact .next (h.go hc text hdec)

theorem Sim.scan_mark (h : Sim S src whole lines t s (c :: cs))
    (hc : t.conf.buffer.bytes[t.conf.buffer.pos]? = some c) {m : Mode} {text : List UInt8}
    {skip : Nat} (hskip : skip ≤ 1)
    (hb : scanByte t.flags t.args.length c = (m.flags, .mark skip))
    (hdec : ∀ q var esc, m = .word q var esc →
      (if skip = 0 then decodeByte ([], false) c else ([], false)) = (text, esc)) :
    Lockstep S src whole lines cs (scan S t)
      (.next { s with mode := m, text := text, since := 1 - skip }) := by
  rw [scan_eq S hc hb]
  exact .next (h.mark hc hskip hdec)

theorem Sim.scan_ret (h : Sim S src whole lines t s (c :: cs))
    (hc : t.conf.buffer.bytes[t.conf.buffer.pos]? = some c) {f : Flags} {rc : Rc}
    (hb : scanByte t.flags t.args.length c = (f, .ret rc)) :
    Lockstep S src whole lines cs (scan S t) (s.ret (.ok rc)) := by
  have hgo := h.go hc [] (m := .gap) (by simp)
  rw [scan_eq S hc hb]
  exact .done (hgo.ret (.ok rc))

theorem Sim.scan_fail (h : Sim S src whole lines t s (c :: cs))
    (hc : t.conf.buffer.bytes[t.conf.buffer.pos]? = some c) {f : Flags}
    (hb : scanByte t.flags t.args.length c = (f, .fail)) :
    Lockstep S src whole lines cs (scan S t) (s.ret (.error (.unexpected c))) := by
  have hgo := h.go hc [] (m := .gap) (by simp)
  rw [scan_eq S hc hb]
  exact .done (hgo.ret (.unexpected c))

/-- A word ends: the copy is the text the lexer has decoded.  This is where the two passes of the
code meet (`copyWord_eq`). -/
theorem Sim.scan_word (hS : S.Allocates) (h : Sim S src whole lines t s (c :: cs))
    (hc : t.conf.buffer.bytes[t.conf.buffer.pos]? = some c) {q : Quote} {var : Bool}
    (hm : s.mode = .word q var false) (hq : q.Ends c)
    (hb : scanByte t.flags t.args.length c
      = (if q = .bare then Mode.gap.flags else Mode.closed.flags, .word)) :
    Lockstep S src whole lines cs (scan S t) (s.endWord q c) := by
  have hcopy : copyWord t.conf.buffer.bytes t.start t.conf.buffer.pos = Word.of s.text :=
    copyWord_eq h.holds.pos_le h.start_le (h.decoded q var false hm)
  rw [scan_eq S hc hb]
  cases hpush : S.arrayPush t.world with
  | mk b w =>
    obtain rfl : b = true := by simpa [hpush] using hS.push t.world
    cases hdata : S.pnalloc (t.conf.buffer.pos - t.start + 1) w with
    | mk b' w' =>
      obtain rfl : b' = true := by
        simpa [hdata] using hS.data (t.conf.buffer.pos - t.start + 1) w
      simp only [Tok.after, pushWord, hpush, ConfFile.advance, hdata, Lexer.endWord]
      have hgo : ∀ m : Mode, (∀ q var esc, m ≠ .word q var esc) →
          Sim S src whole lines
            { t with flags := m.flags, conf := t.conf.advance c,
                     args := t.args ++ [copyWord t.conf.buffer.bytes t.start t.conf.buffer.pos],
                     world := w' }
            { s with mode := m, words := s.words ++ [s.text], since := s.since + 1 } cs :=
        fun m hmode => (h.go hc s.text (m := m)
          fun q var esc he => absurd he (hmode q var esc)).push hcopy
      by_cases hbare : q = .bare
      · subst hbare
        simp only [ne_eq, not_true_eq_false, if_false, if_true]
        have hgap := hgo .gap (by simp)
        by_cases h1 : c = Ch.semicolon
        · simp only [h1, if_true]
          exact .done ((h1 ▸ hgap).ret (.ok .ok))
        · by_cases h2 : c = Ch.lbrace
          · simp only [h2, if_true]
            exact .done ((h2 ▸ hgap).ret (.ok .blockStart))
          · simp only [if_neg h1, if_neg h2]
            exact .next hgap
      · -- a closing quote is neither `;` nor `{`
        have hne : c ≠ Ch.semicolon ∧ c ≠ Ch.lbrace := by
          cases q with
          | bare => exact absurd rfl hbare
          | single =>
            obtain rfl : c = Ch.squote := hq
            decide
          | double =>
            obtain rfl : c = Ch.dquote := hq
            decide
        simp only [ne_eq, hbare, not_false_eq_true, if_true, if_false, if_neg hne.1, if_neg hne.2]
        exact .next (hgo .closed (by simp))

/-- Between words. -/
theorem Sim.scan_between (h : Sim S src whole lines t s (c :: cs))
    (hc : t.conf.buffer.bytes[t.conf.buffer.pos]? = some c)
    (hb : scanByte t.flags t.args.length c = betweenWords .start t.args.length c) :
    Lockstep S src whole lines cs (scan S t) (s.inGap c) := by
  have hwords : t.args.length = 0 ↔ s.words = [] := by
    rw [h.args, List.length_map]
    exact List.length_eq_zero_iff
  unfold betweenWords at hb
  unfold Lexer.inGap
  by_cases h1 : isBlank c = true
  · rw [if_pos h1] at hb ⊢
    exact h.scan_go hc (m := .gap) hb (by simp)
  rw [if_neg h1] at hb ⊢
  by_cases h2 : c = Ch.semicolon ∨ c = Ch.lbrace
  · rw [if_pos h2] at hb ⊢
    by_cases hn : s.words = []
    · rw [if_pos (hwords.mpr hn)] at hb
      rw [if_pos hn]
      exact h.scan_fail hc hb
    · rw [if_neg (fun hz => hn (hwords.mp hz))] at hb
      rw [if_neg hn]
      by_cases h3 : c = Ch.lbrace
      · rw [if_pos h3] at hb ⊢
        exact h.scan_ret hc hb
      · rw [if_neg h3] at hb ⊢
        exact h.scan_ret hc hb
  rw [if_neg h2] at hb ⊢
  by_cases h3 : c = Ch.rbrace
  · rw [if_pos h3] at hb ⊢
    by_cases hn : s.words = []
    · rw [if_neg (not_not.mpr (hwords.mpr hn))] at hb
      rw [if_neg (not_not.mpr hn)]
      exact h.scan_ret hc hb
    · rw [if_pos (fun hz => hn (hwords.mp hz))] at hb
      rw [if_pos hn]
      exact h.scan_fail hc hb
  rw [if_neg h3] at hb ⊢
  by_cases h4 : c = Ch.sharp
  · rw [if_pos h4] at hb ⊢
    exact h.scan_mark hc (m := .comment) (by omega) hb (by simp)
  rw [if_neg h4] at hb ⊢
  by_cases h5 : c = Ch.backslash
  · rw [if_pos h5] at hb ⊢
    refine h.scan_mark hc (m := .word .bare false true) (by omega) hb ?_
    intro q var esc he
    obtain ⟨rfl, rfl, rfl⟩ := Mode.word.inj he
    simp [decodeByte, h5]
  rw [if_neg h5] at hb ⊢
  by_cases h6 : c = Ch.dquote
  · rw [if_pos h6] at hb ⊢
    refine h.scan_mark hc (m := .word .double false false) (by omega) hb ?_
    intro q var esc he
    obtain ⟨rfl, rfl, rfl⟩ := Mode.word.inj he
    rfl
  rw [if_neg h6] at hb ⊢
  by_cases h7 : c = Ch.squote
  · rw [if_pos h7] at hb ⊢
    refine h.scan_mark hc (m := .word .single false false) (by omega) hb ?_
    intro q var esc he
    obtain ⟨rfl, rfl, rfl⟩ := Mode.word.inj he
    rfl
  rw [if_neg h7] at hb ⊢
  refine h.scan_mark hc (m := .word .bare false false) (by omega) hb ?_
  intro q var esc he
  obtain ⟨rfl, rfl, rfl⟩ := Mode.word.inj he
  simp [decodeByte, h5]

/-- Inside a word.  A backslash leads to the mode in which the next byte is skipped; the byte that
closes the quote ends the word; and any other byte is part of it. -/
theorem Sim.scan_inside (hS : S.Allocates) (h : Sim S src whole lines t s (c :: cs))
    (hc : t.conf.buffer.bytes[t.conf.buffer.pos]? = some c) {q : Quote} {var : Bool}
    (hm : s.mode = .word q var false)
    (hb : scanByte t.flags t.args.length c = insideWord (Mode.word q var false).flags c) :
    Lockstep S src whole lines cs (scan S t) (s.inWord q var c) := by
  have hdec : decode t.raw = (s.text, false) := h.decoded q var false hm
  -- an ordinary byte is added to the text
  have hplain : ∀ {q' : Quote} {v : Bool}, c ≠ Ch.backslash → ∀ q'' var' esc,
      Mode.word q' v false = .word q'' var' esc →
        decodeByte (decode t.raw) c = (s.text ++ [c], esc) := by
    intro q' v hne q'' var' esc he
    obtain ⟨rfl, rfl, rfl⟩ := Mode.word.inj he
    simp [hdec, decodeByte, hne]
  unfold insideWord at hb
  unfold Lexer.inWord
  by_cases h1 : c = Ch.lbrace ∧ var = true
  · obtain ⟨h1, rfl⟩ := h1
    rw [if_pos ⟨h1, rfl⟩] at hb ⊢
    exact h.scan_go hc (m := .word q true false) hb (hplain (by rw [h1]; decide))
  have h1' : ¬ (c = Ch.lbrace ∧ (Mode.word q var false).flags.var = true) := h1
  rw [if_neg h1'] at hb
  rw [if_neg h1]
  by_cases h2 : c = Ch.backslash
  · simp only [if_pos h2] at hb ⊢
    refine h.scan_go hc (m := .word q false true) hb ?_
    intro q' var' esc he
    obtain ⟨rfl, rfl, rfl⟩ := Mode.word.inj he
    simp [hdec, decodeByte, h2]
  simp only [if_neg h2] at hb ⊢
  by_cases h3 : c = Ch.dollar
  · simp only [if_pos h3] at hb ⊢
    exact h.scan_go hc (m := .word q true false) hb (hplain h2)
  simp only [if_neg h3] at hb ⊢
  by_cases h4 : q.Ends c
  · rw [if_pos h4]
    refine h.scan_word hS hc hm h4 (hb.trans ?_)
    cases q with
    | bare =>
      have hends : isBlank c = true ∨ c = Ch.semicolon ∨ c = Ch.lbrace := h4
      simp [Mode.flags, Flags.start, hends]
    | single =>
      have hends : c = Ch.squote := h4
      simp [Mode.flags, Flags.start, hends]
    | double =>
      have hends : c = Ch.dquote := h4
      simp [Mode.flags, Flags.start, hends]
  · rw [if_neg h4]
    refine h.scan_go hc (m := .word q false false) (hb.trans ?_) (hplain h2)
    cases q with
    | bare =>
      have hends : ¬ (isBlank c = true ∨ c = Ch.semicolon ∨ c = Ch.lbrace) := h4
      simp [Mode.flags, Flags.start, hends]
    | single =>
      have hends : ¬ c = Ch.squote := h4
      simp [Mode.flags, Flags.start, hends]
    | double =>
      have hends : ¬ c = Ch.dquote := h4
      simp [Mode.flags, Flags.start, hends]

/-- Right after a closing quote. -/
theorem Sim.scan_closed (h : Sim S src whole lines t s (c :: cs))
    (hc : t.conf.buffer.bytes[t.conf.buffer.pos]? = some c) (hm : s.mode = .closed) :
    Lockstep S src whole lines cs (scan S t) (s.inClosed c) := by
  have hflags : t.flags = Mode.closed.flags := hm ▸ h.flags
  unfold Lexer.inClosed
  by_cases h1 : isBlank c = true
  · rw [if_pos h1]
    refine h.scan_go hc (m := .gap) ?_ (by simp)
    simp [hflags, scanByte, Mode.flags, Flags.start, h1]
  rw [if_neg h1]
  have hb : scanByte t.flags t.args.length c =
      if c = Ch.semicolon then (Mode.closed.flags, .ret .ok)
      else if c = Ch.lbrace then (Mode.closed.flags, .ret .blockStart)
      else if c = Ch.rparen then betweenWords .start t.args.length c
      else (Mode.closed.flags, .fail) := by
    simp [hflags, scanByte, scanText, Mode.flags, Flags.start, h1]
  by_cases h2 : c = Ch.semicolon
  · rw [if_pos h2] at hb ⊢
    exact h.scan_ret hc hb
  rw [if_neg h2] at hb ⊢
  by_cases h3 : c = Ch.lbrace
  · rw [if_pos h3] at hb ⊢
    exact h.scan_ret hc hb
  rw [if_neg h3] at hb ⊢
  by_cases h4 : c = Ch.rparen
  · rw [if_pos h4] at hb ⊢
    exact h.scan_between hc hb
  rw [if_neg h4] at hb ⊢
  exact h.scan_fail hc hb

/-- One byte, when the limit is not reached.  There is a lemma for each kind of mode, and this one
tells them apart. -/
theorem Sim.scan_step (hS : S.Allocates) (h : Sim S src whole lines t s (c :: cs))
    (hc : t.conf.buffer.bytes[t.conf.buffer.pos]? = some c) (hlimit : src.limit ≠ some s.since) :
    Lockstep S src whole lines cs (scan S t) (s.step src.limit c) := by
  rw [Lexer.step_off hlimit, Lexer.read]
  cases hm : s.mode with
  | gap =>
    refine h.scan_between hc ?_
    simp [h.flags, hm, scanByte, scanText, Mode.flags, Flags.start]
  | comment =>
    refine h.scan_go hc (m := if c = Ch.lf then .gap else .comment) ?_ ?_
    · by_cases hlf : c = Ch.lf
      · simp [h.flags, hm, scanByte, scanText, betweenWords, isBlank, Mode.flags, Flags.start, hlf]
      · simp [h.flags, hm, scanByte, Mode.flags, Flags.start, hlf]
    · intro q var esc he
      split at he <;> simp at he
  | closed => exact h.scan_closed hc hm
  | word q var esc =>
    cases esc with
    | false =>
      refine h.scan_inside hS hc hm ?_
      simp [h.flags, hm, scanByte, scanText, Mode.flags, Flags.start]
    | true =>
      refine h.scan_go hc (m := .word q var false) ?_ ?_
      · simp [h.flags, hm, scanByte, Mode.flags, Flags.start]
      · intro q' var' esc he
        obtain ⟨rfl, rfl, rfl⟩ := Mode.word.inj he
        simp [h.decoded q var true hm, decodeByte]

/-! ## 5. A whole call -/

/-- The loop of `cw_conf_read_token` refines the lexer: a round is a byte, with a refill in front
of it where the buffer is used up. -/
theorem tokenStep_refines (hS : S.Allocates) (src : Source) (whole : List UInt8) (lines : Nat) :
    Loop.Refines (tokenStep S) (Lexer.step src.limit) Lexer.eof (Sim S src whole lines)
      (Same S src whole lines) where
  at_end t s h := by
    obtain ⟨r, hr, hsame⟩ := h.refill_end
    exact ⟨r, by simp only [tokenStep, hr], hsame⟩
  at_next t s s' c cs h hs := by
    have hlimit := Lexer.off_of_next hs
    obtain ⟨t', ht', h', hc⟩ := h.refill_next hlimit
    have hlock := h'.scan_step hS hc hlimit
    rw [hs] at hlock
    generalize hscan : scan S t' = x at hlock
    cases hlock with
    | next hsim => exact ⟨_, by simp only [tokenStep, ht', hscan], hsim⟩
  at_done t s o c cs h hs := by
    by_cases hlimit : src.limit = some s.since
    · obtain ⟨r, hr, hsame⟩ := h.refill_tooLong hlimit
      rw [Lexer.step_at hlimit] at hs
      cases hs
      exact ⟨r, by simp only [tokenStep, hr], hsame⟩
    · obtain ⟨t', ht', h', hc⟩ := h.refill_next hlimit
      have hlock := h'.scan_step hS hc hlimit
      rw [hs] at hlock
      generalize hscan : scan S t' = x at hlock
      cases hlock with
      | done hsame => exact ⟨_, by simp only [tokenStep, ht', hscan], hsame⟩

/-- At the entry the two stand at the same place, with no word begun and none read. -/
theorem Sim.init {conf : ConfFile} (h : conf.Holds S src rest) (w : σ) :
    Sim S src rest (conf.line + rest.count Ch.lf) (Tok.init S conf w) .start rest := by
  have hraw : (Tok.init S conf w).raw = [] := slice_self _ _
  refine ⟨h, rfl, rfl, Nat.le_refl _, ?_, ?_, ⟨[], ?_⟩, rfl⟩
  · simp [Lexer.start, Tok.init]
  · intro q var esc he
    simp [Lexer.start] at he
  · rw [hraw]
    rfl

/-- A call of `cw_conf_read_token` yields what the lexer yields on the text still to come: the same
code or a corresponding error, the same words, and the same text left for the next call, with
`line` ahead by the line feeds in between. -/
theorem readToken_refines (hS : S.Allocates) {conf : ConfFile} (h : conf.Holds S src rest)
    (w : σ) :
    Same S src rest (conf.line + rest.count Ch.lf) (readToken S conf w) (lex src.limit rest).1
      (lex src.limit rest).2 := by
  obtain ⟨r, hr, hsame⟩ := (tokenStep_refines hS src rest (conf.line + rest.count Ch.lf)).run
    (Sim.init h w) (n := conf.unread + 1) (by rw [h.length_eq]; omega)
  unfold readToken
  rw [hr]
  exact hsame

end

end Capwap
