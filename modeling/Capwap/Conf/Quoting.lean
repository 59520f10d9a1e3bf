/-
# Reading a quoted word gives back the word

Any byte string can be written between quotes: the quote and the backslash with a backslash in
front, LF, CR and TAB as they are or as `\n`, `\r` and `\t`, and every other byte as it is.
Whatever the choices, one call of the tokenizer on a line of such words gives back the strings.

The lexer is in one of two states at every step of the encoding (`Quoted.advance`): in the word,
with the text decoded so far, or right after a backslash.  A `$` sets the flag that makes a `{`
ordinary, which between quotes it is anyway.
-/
import Capwap.Conf.Calls

namespace Capwap

/-! ## 1. Writing a word between quotes

Writing is not a function: a byte that has an escape may often be written as it is, so a word has
many encodings.  `Quoted` is the relation between a word and all of them, and the theorem is about
any; each word of a line may have its own kind of quotes. -/

/-- `raw` is a way to write `s` between the quotes `b`.  The constructors are the choices for one
byte; LF, CR and TAB fall under `plain` as well. -/
inductive Quoted (b : UInt8) : List UInt8 → List UInt8 → Prop
  | nil : Quoted b [] []
  | plain {c : UInt8} {s raw : List UInt8} (hquote : c ≠ b) (hback : c ≠ Ch.backslash)
      (h : Quoted b s raw) : Quoted b (c :: s) (c :: raw)
  | quote {s raw : List UInt8} (h : Quoted b s raw) : Quoted b (b :: s) (Ch.backslash :: b :: raw)
  | backslash {s raw : List UInt8} (h : Quoted b s raw) :
      Quoted b (Ch.backslash :: s) (Ch.backslash :: Ch.backslash :: raw)
  | lf {s raw : List UInt8} (h : Quoted b s raw) :
      Quoted b (Ch.lf :: s) (Ch.backslash :: Ch.n :: raw)
  | cr {s raw : List UInt8} (h : Quoted b s raw) :
      Quoted b (Ch.cr :: s) (Ch.backslash :: Ch.r :: raw)
  | tab {s raw : List UInt8} (h : Quoted b s raw) :
      Quoted b (Ch.tab :: s) (Ch.backslash :: Ch.t :: raw)

/-- Blank bytes only. -/
def Blanks (bs : List UInt8) : Prop := ∀ c ∈ bs, isBlank c = true

/-- A line of words between quotes, one or more blanks apart.  Each word has its own quotes and its
own way of being written. -/
inductive QuotedLine : List (List UInt8) → List UInt8 → Prop
  | one {q : Quote} {b : UInt8} {s raw : List UInt8} (hb : q.Mark b) (h : Quoted b s raw) :
      QuotedLine [s] (b :: raw ++ [b])
  | cons {q : Quote} {b : UInt8} {s raw blanks text : List UInt8} {ss : List (List UInt8)}
      (hb : q.Mark b) (h : Quoted b s raw) (hne : blanks ≠ []) (hblanks : Blanks blanks)
      (hline : QuotedLine ss text) : QuotedLine (s :: ss) (b :: raw ++ b :: (blanks ++ text))

/-! ## 2. The lexer on a quoted word

The states a text leads through are described by predicates, and `Reads P xs Q` says that the bytes
`xs` lead from one to the next.  Such facts are put behind one another (`Reads.append`), so a line
is read by reading its parts: quote, word, quote, blanks. -/

namespace Lexer

/-- Between words, with the words `ws` read. -/
def AtGap (ws : List (List UInt8)) (s : Lexer) : Prop := s.mode = .gap ∧ s.words = ws

/-- In a word, with the text `t` decoded. -/
def InText (ws : List (List UInt8)) (q : Quote) (t : List UInt8) (s : Lexer) : Prop :=
  (∃ var, s.mode = .word q var false) ∧ s.words = ws ∧ s.text = t

/-- Right after a closing quote. -/
def AtClosed (ws : List (List UInt8)) (s : Lexer) : Prop := s.mode = .closed ∧ s.words = ws

/-- Reading some bytes leads from the states of `P` to states of `Q`, within the call: none of the
bytes ends it. -/
def Reads (P : Lexer → Prop) (xs : List UInt8) (Q : Lexer → Prop) : Prop :=
  ∀ s, P s → ∃ s', Loop.advance (step none) s xs = some s' ∧ Q s'

theorem Reads.nil {P : Lexer → Prop} : Reads P [] P := fun s hs => ⟨s, rfl, hs⟩

theorem Reads.append {P Q R : Lexer → Prop} {xs ys : List UInt8} (h : Reads P xs Q)
    (h' : Reads Q ys R) : Reads P (xs ++ ys) R := by
  intro s hs
  obtain ⟨t, ht, hQ⟩ := h s hs
  obtain ⟨u, hu, hR⟩ := h' t hQ
  exact ⟨u, (Loop.advance_append ys ht).trans hu, hR⟩

theorem Reads.mono {P Q R : Lexer → Prop} {xs : List UInt8} (h : Reads P xs Q)
    (hQ : ∀ s, Q s → R s) : Reads P xs R := by
  intro s hs
  obtain ⟨t, ht, hq⟩ := h s hs
  exact ⟨t, ht, hQ t hq⟩

/-- One byte that does not end the call, and what it leads to. -/
theorem Reads.byte {P Q : Lexer → Prop} {c : UInt8}
    (h : ∀ s, P s → ∃ s', s.read c = .next s' ∧ Q s') : Reads P [c] Q := by
  intro s hs
  obtain ⟨s', hread, hQ⟩ := h s hs
  exact ⟨s', by rw [Loop.advance_next ((step_none s c).trans hread)]; rfl, hQ⟩

theorem Reads.cons {P Q R : Lexer → Prop} {c : UInt8} {xs : List UInt8}
    (h : ∀ s, P s → ∃ s', s.read c = .next s' ∧ Q s') (h' : Reads Q xs R) : Reads P (c :: xs) R :=
  (Reads.byte h).append h'

variable {ws : List (List UInt8)} {t : List UInt8} {q : Quote} {b : UInt8}

/-- An opening quote. -/
theorem reads_open (hb : q.Mark b) : Reads (AtGap ws) [b] (InText ws q []) := by
  refine Reads.byte ?_
  rintro s ⟨hm, rfl⟩
  exact ⟨_, (read_gap hm).trans (inGap_open hb), ⟨false, rfl⟩, rfl, rfl⟩

/-- A byte of a quoted word that is neither the quote nor a backslash. -/
theorem reads_plain (hb : q.Mark b) {c : UInt8} (hquote : c ≠ b) (hback : c ≠ Ch.backslash) :
    Reads (InText ws q t) [c] (InText ws q (t ++ [c])) := by
  refine Reads.byte ?_
  rintro s ⟨⟨var, hm⟩, rfl, rfl⟩
  have hends : ¬ q.Ends c := by cases hb <;> exact hquote
  obtain ⟨v, hread⟩ := inWord_plain (s := s) (q := q) hback hends
  exact ⟨_, (read_word hm).trans hread, ⟨v, rfl⟩, rfl, rfl⟩

/-- An escape: the backslash and the byte behind it add what they decode to. -/
theorem reads_escape (e : UInt8) :
    Reads (InText ws q t) [Ch.backslash, e] (InText ws q (t ++ decodeEsc e)) := by
  refine Reads.cons (Q := fun s => s.mode = .word q false true ∧ s.words = ws ∧ s.text = t) ?_
    (Reads.byte ?_)
  · rintro s ⟨⟨var, hm⟩, rfl, rfl⟩
    exact ⟨_, (read_word hm).trans inWord_backslash, rfl, rfl, rfl⟩
  · rintro s ⟨hm, rfl, rfl⟩
    exact ⟨_, read_esc hm, ⟨false, rfl⟩, rfl, rfl⟩

/-- A closing quote. -/
theorem reads_close (hb : q.Mark b) : Reads (InText ws q t) [b] (AtClosed (ws ++ [t])) := by
  refine Reads.byte ?_
  rintro s ⟨⟨var, hm⟩, rfl, rfl⟩
  exact ⟨_, (read_word hm).trans (inWord_close hb), rfl, rfl⟩

/-- The inside of a quoted word is decoded.  The induction follows the encoding, and the text
decoded so far is in front of what is still to come. -/
theorem reads_quoted {s raw : List UInt8} (hb : q.Mark b) (h : Quoted b s raw) :
    ∀ t, Reads (InText ws q t) raw (InText ws q (t ++ s)) := by
  -- an escape that stands for one byte
  have hesc : ∀ {c e : UInt8} {s raw : List UInt8}, decodeEsc e = [c] →
      (∀ t, Reads (InText ws q t) raw (InText ws q (t ++ s))) →
      ∀ t, Reads (InText ws q t) (Ch.backslash :: e :: raw) (InText ws q (t ++ c :: s)) := by
    intro c e s raw hdec ih t
    have hone : Reads (InText ws q t) [Ch.backslash, e] (InText ws q (t ++ decodeEsc e)) :=
      reads_escape e
    rw [hdec] at hone
    have hall := hone.append (ih (t ++ [c]))
    rwa [List.append_assoc] at hall
  induction h with
  | nil => intro t; simpa using Reads.nil
  | plain hquote hback _ ih =>
    intro t
    have hall := (reads_plain (t := t) hb hquote hback).append (ih _)
    rwa [List.append_assoc] at hall
  | quote _ ih => exact hesc (by cases hb <;> decide) ih
  | backslash _ ih => exact hesc (by decide) ih
  | lf _ ih => exact hesc (by decide) ih
  | cr _ ih => exact hesc (by decide) ih
  | tab _ ih => exact hesc (by decide) ih

/-- A word with its quotes. -/
theorem reads_word {s raw : List UInt8} (hb : q.Mark b) (h : Quoted b s raw) :
    Reads (AtGap ws) (b :: raw ++ [b]) (AtClosed (ws ++ [s])) := by
  have hin : Reads (AtGap ws) (b :: raw) (InText ws q s) :=
    (reads_open hb).append (reads_quoted hb h [])
  exact hin.append (reads_close hb)

/-- Blanks between words. -/
theorem reads_blanks {bs : List UInt8} (h : Blanks bs) : Reads (AtGap ws) bs (AtGap ws) := by
  induction bs with
  | nil => exact Reads.nil
  | cons c bs ih =>
    refine Reads.cons ?_ (ih fun d hd => h d (List.mem_cons_of_mem _ hd))
    rintro s ⟨hm, rfl⟩
    have hc : isBlank c = true := h c List.mem_cons_self
    exact ⟨_, (read_gap hm).trans (inGap_blank hc), rfl, rfl⟩

/-- Blanks after a closing quote. -/
theorem reads_separator {bs : List UInt8} (hne : bs ≠ []) (h : Blanks bs) :
    Reads (AtClosed ws) bs (AtGap ws) := by
  cases bs with
  | nil => exact absurd rfl hne
  | cons c bs =>
    refine Reads.cons ?_ (reads_blanks fun d hd => h d (List.mem_cons_of_mem _ hd))
    rintro s ⟨hm, rfl⟩
    have hc : isBlank c = true := h c List.mem_cons_self
    exact ⟨_, (read_closed hm).trans (inClosed_blank hc), rfl, rfl⟩

/-- A line of quoted words. -/
theorem reads_line {ss : List (List UInt8)} {text : List UInt8} (h : QuotedLine ss text) :
    ∀ ws, Reads (AtGap ws) text (AtClosed (ws ++ ss)) := by
  induction h with
  | one hb h => exact fun ws => reads_word hb h
  | @cons q b s raw blanks text ss hb h hne hblanks _ ih =>
    intro ws
    have hall := ((reads_word hb h).append (reads_separator hne hblanks)).append
      (ih (ws ++ [s]))
    simpa using hall

end Lexer

/-! ## 3. One call on a line of quoted words -/

/-- The terminator of a directive, and the code it gives. -/
inductive Ends : UInt8 → Rc → Prop
  | semicolon : Ends Ch.semicolon .ok
  | lbrace : Ends Ch.lbrace .blockStart

theorem QuotedLine.ne_nil {ss : List (List UInt8)} {text : List UInt8} (h : QuotedLine ss text) :
    ss ≠ [] := by
  cases h <;> simp

/-- The lexer on a line of quoted words and its terminator: it returns the words and the
terminator's code, and leaves what is behind. -/
theorem lex_quotedLine {ss : List (List UInt8)} {text blanks tail : List UInt8} {term : UInt8}
    {rc : Rc} (h : QuotedLine ss text) (hblanks : Blanks blanks) (hterm : Ends term rc) :
    lex none (text ++ (blanks ++ term :: tail)) = (⟨.ok rc, ss⟩, tail) := by
  obtain ⟨s, hadv, hm, hw⟩ := Lexer.reads_line h [] .start ⟨rfl, rfl⟩
  rw [List.nil_append] at hw
  rw [lex, Loop.feed_advance _ hadv]
  by_cases hnil : blanks = []
  · have hdone : s.step none term = .done ⟨.ok rc, ss⟩ := by
      cases hterm <;> simp +decide [Lexer.read, hm, Lexer.inClosed, Lexer.ret, hw]
    rw [hnil, List.nil_append, Loop.feed_done hdone]
  · obtain ⟨t, hadv', hm', hw'⟩ := Lexer.reads_separator hnil hblanks s ⟨hm, hw⟩
    have hne := h.ne_nil
    have hdone : t.step none term = .done ⟨.ok rc, ss⟩ := by
      cases hterm <;> simp +decide [Lexer.read, hm', Lexer.inGap, Lexer.ret, hw', hne]
    rw [Loop.feed_advance _ hadv', Loop.feed_done hdone]

/-- **Tokenizing undoes quoting.**  Whatever stands behind the terminator, the call returns the
code of the terminator, `cf->args` holds the strings, each with its length and a NUL behind it, and
the position is right behind the terminator. -/
theorem readToken_quotedLine {σ : Type} {S : Sys σ} {ss : List (List UInt8)}
    {text blanks tail : List UInt8} {term : UInt8} {rc : Rc} (hS : S.Allocates)
    (h : QuotedLine ss text) (hblanks : Blanks blanks) (hterm : Ends term rc) (w : σ) :
    (readToken S (.param (text ++ (blanks ++ term :: tail))) w).rc = .ok rc ∧
      (readToken S (.param (text ++ (blanks ++ term :: tail))) w).args
        = ss.map (fun s => { len := s.length, data := s ++ [0] }) ∧
      (readToken S (.param (text ++ (blanks ++ term :: tail))) w).conf.buffer.pos
        = text.length + blanks.length + 1 := by
  have hsame := readToken_refines hS
    (ConfFile.param_holds S (text ++ (blanks ++ term :: tail))) w
  have hlex : lex (Source.memory (text ++ (blanks ++ term :: tail))).limit
      (text ++ (blanks ++ term :: tail)) = (⟨.ok rc, ss⟩, tail) := lex_quotedLine h hblanks hterm
  rw [hlex] at hsame
  obtain ⟨hag, hargs, -, hconf⟩ := hsame
  obtain ⟨hpos, -⟩ := (hconf (by simp)).1.pos_eq
  refine ⟨?_, hargs, ?_⟩
  · simp only at hag
    generalize (readToken S _ w).rc = a at hag
    cases hag
    rfl
  · simp only [List.length_append, List.length_cons] at hpos
    omega

/-- The statement for two words, `a"` and the empty one, in two kinds of quotes. -/
theorem readToken_quotedLine_sample :
    (readToken (Sys.plain []) (.param [34, 97, 92, 34, 34, 32, 39, 39, 59]) ()).rc = .ok .ok ∧
    (readToken (Sys.plain []) (.param [34, 97, 92, 34, 34, 32, 39, 39, 59]) ()).args
      = [[97, 34], []].map (fun s => { len := s.length, data := s ++ [0] }) ∧
    (readToken (Sys.plain []) (.param [34, 97, 92, 34, 34, 32, 39, 39, 59]) ()).conf.buffer.pos
      = 9 :=
  have hlast : QuotedLine [[]] [39, 39] := @QuotedLine.one .single 39 [] [] .single .nil
  have hline : QuotedLine [[97, 34], []] [34, 97, 92, 34, 34, 32, 39, 39] :=
    @QuotedLine.cons .double 34 [97, 34] [97, 92, 34] [32] [39, 39] [[]] .double
      (.plain (by decide) (by decide) (.quote .nil)) (by decide) (by simp [Blanks, isBlank]) hlast
  readToken_quotedLine (Sys.plain_allocates _) hline (show Blanks [] by simp [Blanks]) .semicolon ()

end Capwap
