/-
# Variables in bare words

A bare word may contain groups `${name}`: the scanner sets a flag at a `$` inside a word, and with
the flag set a `{` is an ordinary byte.  The first byte of a word goes through another branch,
which has no case for `$` and leaves the flag alone, so the `{` of a group at the start of a word
ends the word `$` and starts a block.

Words of such bytes and groups are `VarWord`.  One that does not start with a group is read whole,
wherever it stands in a directive (`Lexer.reads_varWord`); one that does is never read whole
(`readsWhole_iff`).
-/
import Capwap.Conf.Quoting

namespace Capwap

/-! ## 1. Words with variables

What the property is about is a plain idea: a word that is made of ordinary bytes and groups should
be one word to the tokenizer.  `ReadsWhole` says it for the word as a directive of its own, and for
the word among others. -/

/-- A byte without a meaning of its own in a word: it may start one, and it is not a `$`. -/
def VarByte (c : UInt8) : Prop := Lexer.Starts c ∧ c ≠ Ch.dollar

/-- Plain bytes and groups, in any order and number. -/
inductive VarWord : List UInt8 → Prop
  | nil : VarWord []
  | plain {c : UInt8} {word : List UInt8} (hc : VarByte c) (h : VarWord word) : VarWord (c :: word)
  | group {name word : List UInt8} (hname : ∀ c ∈ name, VarByte c) (h : VarWord word) :
      VarWord (Ch.dollar :: Ch.lbrace :: (name ++ Ch.rbrace :: word))

/-- Bytes that leave the tokenizer between two words of a directive, or before its first one, with
the words `ws` read. -/
def Between (pre : List UInt8) (ws : List (List UInt8)) : Prop :=
  ∃ s, Loop.advance (Lexer.step none) .start pre = some s ∧ Lexer.AtGap ws s

/-- The tokenizer takes `word` for one word. -/
structure ReadsWhole (word : List UInt8) : Prop where
  /-- a directive of this one word -/
  alone : ∀ {σ : Type} {S : Sys σ}, S.Allocates → ∀ w : σ,
    (readToken S (.param (word ++ [Ch.semicolon])) w).rc = .ok .ok ∧
      (readToken S (.param (word ++ [Ch.semicolon])) w).args = [Word.of word]
  /-- among the words of a directive: the call goes on to the byte behind the word, which is the
  one that ends it -/
  inside : ∀ {σ : Type} {S : Sys σ}, S.Allocates → ∀ (w : σ) {pre : List UInt8}
      {ws : List (List UInt8)}, Between pre ws →
      ∀ {c : UInt8} (post : List UInt8), Quote.bare.Ends c →
    (ws ++ [word]).map Word.of <+: (readToken S (.param (pre ++ (word ++ c :: post))) w).args ∧
      pre.length + word.length
        < (readToken S (.param (pre ++ (word ++ c :: post))) w).conf.buffer.pos

/-! ## 2. What a call keeps

Two facts about calls without a limit: the report of a long item does not come, and words that have
been read stay at the front of those returned. -/

namespace Lexer

variable {s s' : Lexer} {c : UInt8} {o : Lexeme}

/-- Without a limit there is no report. -/
theorem read_ne_tooLong (h : s.read c = .done o) : o.rc ≠ .error .tooLong := by
  unfold read at h
  split at h
  · obtain ⟨-, ⟨-, ⟨-, hrc⟩ | ⟨-, hrc⟩⟩ | ⟨-, -, hrc⟩ | hrc⟩ := inGap_done h <;> simp [hrc]
  · simp at h
  · obtain ⟨-, ⟨-, hrc⟩ | ⟨-, hrc⟩ | hrc⟩ := inClosed_done h <;> simp [hrc]
  · simp at h
  · obtain ⟨-, -, ⟨-, hrc⟩ | ⟨-, hrc⟩⟩ := inWord_done h <;> simp [hrc]

theorem lex_ne_tooLong (text : List UInt8) : (lex none text).1.rc ≠ .error .tooLong := by
  unfold lex
  rcases Loop.feed_cases (Lexer.step none) Lexer.eof text .start with
    ⟨s, -, hfeed⟩ | ⟨pre, c, rest, s, o, -, -, hdone, hfeed⟩
  · rw [hfeed]
    exact eof_ne s
  · rw [hfeed]
    rw [step_none] at hdone
    exact read_ne_tooLong hdone

/-- A byte does not take a word away. -/
theorem read_words (h : s.read c = .next s') : s.words <+: s'.words := by
  unfold read at h
  split at h
  · unfold inGap ret at h
    split_ifs at h <;> cases h <;> exact List.prefix_rfl
  · cases h
    exact List.prefix_rfl
  · unfold inClosed inGap ret at h
    split_ifs at h <;> cases h <;> exact List.prefix_rfl
  · cases h
    exact List.prefix_rfl
  · unfold inWord endWord ret at h
    split_ifs at h <;> cases h <;> first | exact List.prefix_rfl | exact List.prefix_append _ _

theorem read_words_done (h : s.read c = .done o) : s.words <+: o.words := by
  unfold read at h
  split at h
  · exact (inGap_done h).1 ▸ List.prefix_rfl
  · simp at h
  · exact (inClosed_done h).1 ▸ List.prefix_rfl
  · simp at h
  · rw [(inWord_done h).1]
    exact List.prefix_append _ _

/-- Nor does the rest of a call.  The induction is on the bytes. -/
theorem feed_words : ∀ (xs : List UInt8) (s : Lexer),
    s.words <+: (Loop.feed (step none) eof s xs).1.words := by
  intro xs
  induction xs with
  | nil =>
    intro s
    exact List.prefix_rfl
  | cons c xs ih =>
    intro s
    cases hs : s.step none c with
    | done o =>
      rw [Loop.feed_done hs]
      rw [step_none] at hs
      exact read_words_done hs
    | next s' =>
      rw [Loop.feed_next hs]
      rw [step_none] at hs
      exact (read_words hs).trans (ih s')

/-! ## 3. A word that starts with a plain byte

Inside a word a `$` sets a flag under which a `{` is passed over, and the next other byte clears
it.  The bytes of the name and the `}` are bytes like any other in a word.  So once the first byte
is read, the rest is, up to the byte that ends a bare word. -/

variable {ws : List (List UInt8)} {t : List UInt8}

/-- In a bare word, and not behind a `$`. -/
def InBare (ws : List (List UInt8)) (t : List UInt8) (s : Lexer) : Prop :=
  s.mode = .word .bare false false ∧ s.words = ws ∧ s.text = t

theorem InBare.inText (h : s.InBare ws t) : s.InText ws .bare t := ⟨⟨false, h.1⟩, h.2⟩

theorem VarByte.not_ends (hc : VarByte c) : ¬ Quote.bare.Ends c ∧ c ≠ Ch.backslash := by
  obtain ⟨⟨hblank, hsemi, hopen, -, -, hback, -, -⟩, -⟩ := hc
  refine ⟨?_, hback⟩
  rintro (h | h | h)
  · rw [hblank] at h
    cases h
  · exact hsemi h
  · exact hopen h

/-- A byte of a bare word clears the flag. -/
theorem reads_bare (hends : ¬ Quote.bare.Ends c) (hback : c ≠ Ch.backslash)
    (hdollar : c ≠ Ch.dollar) : Reads (InText ws .bare t) [c] (InBare ws (t ++ [c])) := by
  refine Reads.byte ?_
  rintro s ⟨⟨var, hm⟩, rfl, rfl⟩
  have hopen : ¬ (c = Ch.lbrace ∧ var = true) := fun h => hends (Or.inr (Or.inr h.1))
  have hread : s.inWord .bare var c = .next { s with
      mode := .word .bare false false, text := s.text ++ [c], since := s.since + 1 } := by
    rw [inWord, if_neg hopen, if_neg hback, if_neg hdollar, if_neg hends]
  exact ⟨_, (read_word hm).trans hread, rfl, rfl, rfl⟩

theorem reads_bytes {name : List UInt8} (h : ∀ c ∈ name, VarByte c) :
    ∀ t, Reads (InText ws .bare t) name (InText ws .bare (t ++ name)) := by
  induction name with
  | nil =>
    intro t
    rw [List.append_nil]
    exact Reads.nil
  | cons c name ih =>
    intro t
    have hc := h c List.mem_cons_self
    obtain ⟨hends, hback⟩ := VarByte.not_ends hc
    have hrest := ih (fun d hd => h d (List.mem_cons_of_mem _ hd)) (t ++ [c])
    rw [List.append_assoc] at hrest
    exact ((reads_bare hends hback hc.2).mono fun _ => InBare.inText).append hrest

/-- The opening of a group inside a word: the flag lets the `{` pass. -/
theorem reads_group_open :
    Reads (InBare ws t) [Ch.dollar, Ch.lbrace] (InText ws .bare (t ++ [Ch.dollar, Ch.lbrace])) := by
  refine Reads.cons (Q := fun s => s.mode = .word .bare true false ∧ s.words = ws ∧
    s.text = t ++ [Ch.dollar]) ?_ (Reads.byte ?_)
  · rintro s ⟨hm, hw, ht⟩
    refine ⟨{ s with mode := .word .bare true false, text := s.text ++ [Ch.dollar],
                     since := s.since + 1 }, (read_word hm).trans ?_, rfl, hw, by rw [ht]⟩
    simp +decide [inWord]
  · rintro s ⟨hm, rfl, ht⟩
    refine ⟨_, (read_word hm).trans (if_pos ⟨rfl, rfl⟩), ⟨true, rfl⟩, rfl, ?_⟩
    simp only [ht, List.append_assoc, List.cons_append, List.nil_append]

/-- The rest of a word with variables.  The induction is on the word. -/
theorem reads_varWord {word : List UInt8} (h : VarWord word) :
    ∀ t, Reads (InBare ws t) word (InBare ws (t ++ word)) := by
  induction h with
  | nil =>
    intro t
    rw [List.append_nil]
    exact Reads.nil
  | @plain c word hc _ ih =>
    intro t
    obtain ⟨hends, hback⟩ := VarByte.not_ends hc
    have hfirst : Reads (InBare ws t) [c] (InBare ws (t ++ [c])) := fun s hs =>
      reads_bare hends hback hc.2 s hs.inText
    have hall := hfirst.append (ih _)
    rwa [List.append_assoc] at hall
  | @group name word hname _ ih =>
    intro t
    have hclose : Reads (InText ws .bare (t ++ [Ch.dollar, Ch.lbrace] ++ name)) [Ch.rbrace]
        (InBare ws (t ++ [Ch.dollar, Ch.lbrace] ++ name ++ [Ch.rbrace])) :=
      reads_bare (by decide) (by decide) (by decide)
    have hall := ((reads_group_open.append (reads_bytes hname _)).append hclose).append (ih _)
    simpa only [List.append_assoc, List.cons_append, List.nil_append] using hall

/-- A whole word that starts with a plain byte. -/
theorem reads_first {word : List UInt8} (hc : VarByte c) (h : VarWord word) :
    Reads (AtGap ws) (c :: word) (InBare ws (c :: word)) := by
  have hfirst : Reads (AtGap ws) [c] (InBare ws [c]) := by
    refine Reads.byte ?_
    rintro s ⟨hm, rfl⟩
    exact ⟨_, (read_gap hm).trans (inGap_starts hc.1 s), rfl, rfl, rfl⟩
  exact hfirst.append (reads_varWord h [c])

/-- The byte behind a bare word ends it, and with it the call if it is `;` or `{`. -/
theorem read_end (hin : s.InBare ws t) (hends : Quote.bare.Ends c) :
    (∃ rc, s.read c = .done ⟨.ok rc, ws ++ [t]⟩ ∧ (c = Ch.semicolon → rc = .ok)) ∨
      ∃ s', s.read c = .next s' ∧ s'.words = ws ++ [t] := by
  obtain ⟨hm, hw, ht⟩ := hin
  have hback : c ≠ Ch.backslash := by
    rintro rfl
    exact absurd hends (by decide)
  have hdollar : c ≠ Ch.dollar := by
    rintro rfl
    exact absurd hends (by decide)
  rw [read_word hm, inWord, if_neg (by simp), if_neg hback, if_neg hdollar, if_pos hends]
  unfold endWord ret
  simp only [ne_eq, not_true_eq_false, if_false, hw, ht]
  by_cases hsemi : c = Ch.semicolon
  · exact Or.inl ⟨.ok, if_pos hsemi, fun _ => rfl⟩
  · rw [if_neg hsemi]
    by_cases hopen : c = Ch.lbrace
    · exact Or.inl ⟨.blockStart, if_pos hopen, fun h => absurd h hsemi⟩
    · rw [if_neg hopen]
      exact Or.inr ⟨_, rfl, rfl⟩

end Lexer

/-! ## 4. When a word is read whole

A word that starts with a group is read as the word `$`, and the directive ends at the `{`, in
front of the name. -/

section
variable {σ : Type} {S : Sys σ} {text : List UInt8}

/-- A call on a text in memory, in the words of the lexer. -/
theorem param_call (hS : S.Allocates) (text : List UInt8) (w : σ) :
    Agrees (Source.memory text) text (readToken S (.param text) w).rc (lex none text).1.rc ∧
      (readToken S (.param text) w).args = (lex none text).1.words.map Word.of ∧
      (readToken S (.param text) w).conf.buffer.pos + (lex none text).2.length = text.length := by
  have hsame := readToken_refines hS (ConfFile.param_holds S text) w
  have hlex : lex (Source.memory text).limit text = lex none text := rfl
  rw [hlex] at hsame
  obtain ⟨hpos, -⟩ := (hsame.conf (Lexer.lex_ne_tooLong text)).1.pos_eq
  exact ⟨hsame.rc, hsame.args, hpos⟩

/-- What a call yields when a bare word and the byte behind it have been read: the word is among
the words returned, and the call has got past it. -/
theorem lex_of_reads {pre word post : List UInt8} {ws : List (List UInt8)} {c : UInt8}
    (hpre : Between pre ws) (hread : Lexer.Reads (Lexer.AtGap ws) word (Lexer.InBare ws word))
    (hends : Quote.bare.Ends c) :
    ws ++ [word] <+: (lex none (pre ++ (word ++ c :: post))).1.words ∧
      (lex none (pre ++ (word ++ c :: post))).2.length ≤ post.length ∧
      (c = Ch.semicolon →
        lex none (pre ++ (word ++ c :: post)) = (⟨.ok .ok, ws ++ [word]⟩, post)) := by
  obtain ⟨s, hs, hgap⟩ := hpre
  obtain ⟨s', hs', hin⟩ := hread s hgap
  unfold lex
  rw [Loop.feed_advance _ hs, Loop.feed_advance _ hs']
  rcases Lexer.read_end hin hends with ⟨rc, hdone, hrc⟩ | ⟨s'', hnext, hwords⟩
  · rw [Loop.feed_done ((Lexer.step_none s' c).trans hdone)]
    exact ⟨List.prefix_rfl, Nat.le_refl _, fun h => by rw [hrc h]⟩
  · have hstep := (Lexer.step_none s' c).trans hnext
    rw [Loop.feed_next hstep]
    refine ⟨hwords ▸ Lexer.feed_words post s'', (Loop.feed_suffix s'' post).length_le, ?_⟩
    rintro rfl
    -- a `;` does not leave the call open
    rcases hin with ⟨hm, -, -⟩
    rw [Lexer.read_word hm] at hnext
    simp +decide [Lexer.inWord, Lexer.endWord, Lexer.ret] at hnext

end

theorem varByte_a : VarByte 97 := by
  simp +decide [VarByte]

theorem varWord_sample : VarWord [36, 123, 97, 125] := by
  refine @VarWord.group [97] [] ?_ .nil
  intro c hc
  rw [List.mem_singleton.mp hc]
  exact varByte_a

/-- **A word of plain bytes and groups is read whole just when it does not start with a group.**  A
group inside the word does no harm, wherever it stands, and neither do several of them. -/
theorem readsWhole_iff {word : List UInt8} (h : VarWord word) (hne : word ≠ []) :
    ReadsWhole word ↔ word.head? ≠ some Ch.dollar := by
  constructor
  · intro hwhole hhead
    cases h with
    | nil => exact hne rfl
    | plain hc h => exact hc.2 (Option.some.inj hhead)
    | @group name rest hname h =>
      -- the call ends at the brace, and the word is the dollar
      obtain ⟨hrc, -⟩ := hwhole.alone (Sys.plain_allocates []) ()
      obtain ⟨hag, -, -⟩ := param_call (Sys.plain_allocates [])
        (Ch.dollar :: Ch.lbrace :: (name ++ Ch.rbrace :: rest) ++ [Ch.semicolon]) ()
      have hlex : (lex none (Ch.dollar :: Ch.lbrace :: (name ++ Ch.rbrace :: rest)
          ++ [Ch.semicolon])).1.rc = .ok .blockStart := by
        rfl
      rw [hrc, hlex] at hag
      cases hag
  · intro hhead
    have hread : ∀ ws, Lexer.Reads (Lexer.AtGap ws) word (Lexer.InBare ws word) := by
      intro ws
      cases h with
      | nil => exact absurd rfl hne
      | plain hc h => exact Lexer.reads_first hc h
      | group hname h => exact absurd rfl hhead
    refine ⟨fun {σ S} hS w => ?_, fun {σ S} hS w {pre ws} hpre {c} post hends => ?_⟩
    · have hstart : Between [] [] := ⟨.start, rfl, rfl, rfl⟩
      obtain ⟨-, -, hsemi⟩ := @lex_of_reads [] word [] [] _ hstart (hread [])
        (Or.inr (Or.inl rfl) : Quote.bare.Ends Ch.semicolon)
      have hlex := hsemi rfl
      rw [List.nil_append] at hlex
      obtain ⟨hag, hargs, -⟩ := param_call hS (word ++ [Ch.semicolon]) w
      rw [hlex] at hag hargs
      refine ⟨?_, hargs⟩
      generalize (readToken S _ w).rc = a at hag
      cases hag
      rfl
    · obtain ⟨hwords, hlen, -⟩ := @lex_of_reads pre word post ws c hpre (hread ws) hends
      obtain ⟨-, hargs, hpos⟩ := param_call hS (pre ++ (word ++ c :: post)) w
      refine ⟨?_, ?_⟩
      · rw [hargs]
        exact hwords.map Word.of
      · simp only [List.length_append, List.length_cons] at hpos
        omega

/-- The word `a${a}` is read whole. -/
theorem readsWhole_iff_sample :
    ReadsWhole [97, 36, 123, 97, 125] ↔ [97, 36, 123, 97, 125].head? ≠ some Ch.dollar :=
  readsWhole_iff (.plain varByte_a varWord_sample) (List.cons_ne_nil _ _)

/-- The text `${a};`: the brace behind the leading `$` starts a block. -/
theorem dollarFirst_splits : VarWord [36, 123, 97, 125] ∧ ¬ ReadsWhole [36, 123, 97, 125] := by
  refine ⟨varWord_sample, fun h => ?_⟩
  have hrc := (h.alone (Sys.plain_allocates []) ()).1
  revert hrc
  decide +kernel

end Capwap
