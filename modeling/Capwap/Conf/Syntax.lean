/-
# The language of configuration files

`Conf/Lexer.lean` says byte by byte what a call does.  This file says what the texts are.  A word
is bare or stands between quotes, and its inside is decoded (`Inside`); a line is a layout, words
and a terminator (`Line`); a text is written for a tree when its lines are those of the tree
(`Written`).

`lex_iff` is the reading of one line in both directions: a call returns these words just when
their line is what it takes.  So a text is written for one tree at most (`Written.unique`), and a
tree can be printed: with every word between quotes, its text is written for it
(`written_print`).
-/
import Capwap.Conf.Layout
import Capwap.Conf.Grammar

namespace Capwap

/-! ## 1. Words

A word in the text is not the word that is read: a backslash and the byte behind it stand for what
they decode to.  The one piece of context is the `$`.  A `{` right behind it, inside a word, does
not end the word, and neither does another `{` behind that one. -/

/-- The inside of a word and what it stands for.  The indices say whether a `{` would be an
ordinary byte there, since it stands behind a `$`: before, and after. -/
inductive Inside (q : Quote) : Bool → List UInt8 → List UInt8 → Bool → Prop
  | nil {v : Bool} : Inside q v [] [] v
  | escape {v v' : Bool} {s raw : List UInt8} (e : UInt8) (h : Inside q false s raw v') :
      Inside q v (decodeEsc e ++ s) (Ch.backslash :: e :: raw) v'
  | dollar {v v' : Bool} {s raw : List UInt8} (h : Inside q true s raw v') :
      Inside q v (Ch.dollar :: s) (Ch.dollar :: raw) v'
  | brace {v' : Bool} {s raw : List UInt8} (h : Inside q true s raw v') :
      Inside q true (Ch.lbrace :: s) (Ch.lbrace :: raw) v'
  | plain {v v' : Bool} {c : UInt8} {s raw : List UInt8} (hback : c ≠ Ch.backslash)
      (hdollar : c ≠ Ch.dollar) (hbrace : ¬ (c = Ch.lbrace ∧ v = true)) (hends : ¬ q.Ends c)
      (h : Inside q false s raw v') : Inside q v (c :: s) (c :: raw) v'

/-- A bare word.  Its first byte is read by another branch than the others, so a `$` that it starts
with is an ordinary byte. -/
inductive Bare : List UInt8 → List UInt8 → Bool → Prop
  | escape {v : Bool} {s raw : List UInt8} (e : UInt8) (h : Inside .bare false s raw v) :
      Bare (decodeEsc e ++ s) (Ch.backslash :: e :: raw) v
  | plain {v : Bool} {c : UInt8} {s raw : List UInt8} (hc : Lexer.Starts c)
      (h : Inside .bare false s raw v) : Bare (c :: s) (c :: raw) v

/-! ## 2. Lines

A line is read from left to right, and what may come next depends on the place: a terminator needs
a word before it, a `}` needs that there is none, a blank must follow a word before the next.  The
predicate is indexed by the place, and each constructor puts a piece in front. -/

/-- Places in a line: in a gap, before or after the first word; behind a bare word, which may end
with the flag of a `$` set; behind a closing quote. -/
inductive Place
  | gap (after : Bool)
  | bare (var : Bool)
  | closed
deriving DecidableEq

/-- The rest of a line from a place on: its words, and the code of its end.  A whole line is the
rest from a gap in which no word has come. -/
inductive Line : Place → List (List UInt8) → Rc → List UInt8 → Prop
  | fileDone : Line (.gap false) [] .fileDone []
  | comment {body : List UInt8} (h : Ch.lf ∉ body) :
      Line (.gap false) [] .fileDone (Ch.sharp :: body)
  | blockDone : Line (.gap false) [] .blockDone [Ch.rbrace]
  | ok {p : Place} (hp : p ≠ .gap false) : Line p [] .ok [Ch.semicolon]
  | blockStart {p : Place} (hp : p ≠ .gap false) (hvar : p ≠ .bare true) :
      Line p [] .blockStart [Ch.lbrace]
  | layout {b : Bool} {ws : List (List UInt8)} {rc : Rc} {ins t : List UInt8} (hins : Layout ins)
      (h : Line (.gap b) ws rc t) : Line (.gap b) ws rc (ins ++ t)
  | bare {b v : Bool} {ws : List (List UInt8)} {rc : Rc} {s raw t : List UInt8} (hw : Bare s raw v)
      (h : Line (.bare v) ws rc t) : Line (.gap b) (s :: ws) rc (raw ++ t)
  | quoted {b v : Bool} {ws : List (List UInt8)} {rc : Rc} {q : Quote} {c : UInt8}
      {s raw t : List UInt8} (hc : q.Mark c) (hw : Inside q false s raw v)
      (h : Line .closed ws rc t) : Line (.gap b) (s :: ws) rc (c :: (raw ++ c :: t))
  | blank {p : Place} {ws : List (List UInt8)} {rc : Rc} {c : UInt8} {t : List UInt8}
      (hp : ∀ b, p ≠ .gap b) (hc : isBlank c = true) (h : Line (.gap true) ws rc t) :
      Line p ws rc (c :: t)
  /-- a `)` may start a word behind a closing quote -/
  | paren {v : Bool} {ws : List (List UInt8)} {rc : Rc} {s raw t : List UInt8}
      (hw : Inside .bare false s raw v) (h : Line (.bare v) ws rc t) :
      Line .closed ((Ch.rparen :: s) :: ws) rc (Ch.rparen :: (raw ++ t))

/-! ## 3. What is written is read

The lexer is run on the pieces of a line, one after the other.  For each piece there is a lemma
that says in which state it leaves the lexer (`Reads`), and `Line.feed` puts these together, by
induction on the line. -/

namespace Lexer

/-- In a word, not behind a backslash, so many bytes since its start. -/
structure InWord (q : Quote) (v : Bool) (ws : List (List UInt8)) (u : List UInt8) (k : Nat)
    (s : Lexer) : Prop where
  mode : s.mode = .word q v false
  words : s.words = ws
  text : s.text = u
  since : s.since = k

/-- At a place, with these words read: what the lexer's state is there.  Behind a bare word the
last of them is still being read. -/
def At : Place → List (List UInt8) → Lexer → Prop
  | .gap b, ws, s => s.mode = .gap ∧ s.words = ws ∧ (b = true ↔ ws ≠ [])
  | .bare v, ws, s => s.mode = .word .bare v false ∧ s.words ++ [s.text] = ws
  | .closed, ws, s => s.mode = .closed ∧ s.words = ws ∧ ws ≠ []

variable {s : Lexer} {q : Quote} {v v' : Bool} {ws : List (List UInt8)} {t raw : List UInt8}

theorem inWord_dollar : s.inWord q v Ch.dollar
    = .next { s with mode := .word q true false, text := s.text ++ [Ch.dollar],
                     since := s.since + 1 } := by
  simp +decide [inWord]

theorem inWord_brace : s.inWord q true Ch.lbrace
    = .next { s with mode := .word q true false, text := s.text ++ [Ch.lbrace],
                     since := s.since + 1 } := by
  simp [inWord]

theorem inWord_other {c : UInt8} (hback : c ≠ Ch.backslash) (hdollar : c ≠ Ch.dollar)
    (hbrace : ¬ (c = Ch.lbrace ∧ v = true)) (hends : ¬ q.Ends c) : s.inWord q v c
      = .next { s with mode := .word q false false, text := s.text ++ [c],
                       since := s.since + 1 } := by
  simp only [inWord, if_neg hbrace, if_neg hback, if_neg hdollar, if_neg hends]

theorem reads_inside (ws : List (List UInt8)) (h : Inside q v t raw v') :
    ∀ u k, Reads (InWord q v ws u k) raw (InWord q v' ws (u ++ t) (k + raw.length)) := by
  -- one byte more in front
  have hone : ∀ {v v' : Bool} {u w t raw : List UInt8} {k : Nat},
      (∀ u k, Reads (InWord q v ws u k) raw (InWord q v' ws (u ++ t) (k + raw.length))) →
      Reads (InWord q v ws (u ++ w) (k + 1)) raw
        (InWord q v' ws (u ++ (w ++ t)) (k + (raw.length + 1))) := by
    intro v v' u w t raw k ih
    have hrest := ih (u ++ w) (k + 1)
    rw [List.append_assoc, show k + 1 + raw.length = k + (raw.length + 1) by omega] at hrest
    exact hrest
  induction h with
  | nil =>
    intro u k
    simpa using Reads.nil
  | @escape v v' s raw e _ ih =>
    intro u k
    have hrest := hone (u := u) (w := decodeEsc e) (k := k + 1) ih
    rw [show k + 1 + (raw.length + 1) = k + (raw.length + 1 + 1) by omega] at hrest
    refine Reads.cons (Q := fun s => s.mode = .word q false true ∧ s.words = ws ∧ s.text = u ∧
      s.since = k + 1) ?_ (Reads.cons ?_ hrest)
    · rintro s ⟨hm, rfl, rfl, rfl⟩
      exact ⟨_, (read_word hm).trans inWord_backslash, rfl, rfl, rfl, rfl⟩
    · rintro s ⟨hm, rfl, rfl, hk⟩
      exact ⟨_, read_esc hm, rfl, rfl, rfl, congrArg Nat.succ hk⟩
  | @dollar v v' s raw _ ih =>
    intro u k
    refine Reads.cons ?_ (hone (u := u) (w := [Ch.dollar]) (k := k) ih)
    rintro s ⟨hm, rfl, rfl, rfl⟩
    exact ⟨_, (read_word hm).trans inWord_dollar, rfl, rfl, rfl, rfl⟩
  | @brace v' s raw _ ih =>
    intro u k
    refine Reads.cons ?_ (hone (u := u) (w := [Ch.lbrace]) (k := k) ih)
    rintro s ⟨hm, rfl, rfl, rfl⟩
    exact ⟨_, (read_word hm).trans inWord_brace, rfl, rfl, rfl, rfl⟩
  | @plain v v' c s raw hback hdollar hbrace hends _ ih =>
    intro u k
    refine Reads.cons ?_ (hone (u := u) (w := [c]) (k := k) ih)
    rintro s ⟨hm, rfl, rfl, rfl⟩
    exact ⟨_, (read_word hm).trans (inWord_other hback hdollar hbrace hends), rfl, rfl, rfl, rfl⟩

theorem read_comment {c : UInt8} (hm : s.mode = .comment) : s.read c
    = .next { s with mode := if c = Ch.lf then .gap else .comment, since := s.since + 1 } := by
  simp only [read, hm]

/-- A blank ends a bare word. -/
theorem inWord_blank {c : UInt8} (hc : isBlank c = true) : s.inWord .bare v c
    = .next { s with mode := .gap, words := s.words ++ [s.text], since := s.since + 1 } := by
  have hne : c ≠ Ch.lbrace ∧ c ≠ Ch.backslash ∧ c ≠ Ch.dollar ∧ c ≠ Ch.semicolon := by
    refine ⟨?_, ?_, ?_, ?_⟩ <;> (rintro rfl; exact absurd hc (by decide))
  obtain ⟨hbrace, hback, hdollar, hsemi⟩ := hne
  simp [inWord, endWord, hbrace, hback, hdollar, hsemi, Quote.Ends, hc]

theorem inClosed_paren : s.inClosed Ch.rparen
    = .next { s with mode := .word .bare false false, text := [Ch.rparen], since := 1 } := by
  simp +decide [inClosed, inGap]

theorem inGap_backslash : s.inGap Ch.backslash
    = .next { s with mode := .word .bare false true, text := [], since := 1 } := by
  simp +decide [inGap]

/-- A bare word. -/
theorem reads_bareWord (h : Bare t raw v) :
    Reads (AtGap ws) raw (InWord .bare v ws t raw.length) := by
  cases h with
  | @escape _ s raw e h =>
    have hrest := reads_inside ws h (decodeEsc e) 2
    rw [Nat.add_comm] at hrest
    refine Reads.cons (Q := fun s => s.mode = .word .bare false true ∧ s.words = ws ∧ s.text = [] ∧
      s.since = 1) ?_ (Reads.cons ?_ hrest)
    · rintro s ⟨hm, rfl⟩
      exact ⟨_, (read_gap hm).trans inGap_backslash, rfl, rfl, rfl, rfl⟩
    · rintro s ⟨hm, rfl, htext, hk⟩
      refine ⟨_, read_esc hm, rfl, rfl, ?_, congrArg Nat.succ hk⟩
      simp only [htext, List.nil_append]
  | @plain _ c s raw hc h =>
    have hrest := reads_inside ws h [c] 1
    rw [Nat.add_comm] at hrest
    refine Reads.cons ?_ hrest
    rintro s ⟨hm, rfl⟩
    exact ⟨_, (read_gap hm).trans (inGap_starts hc s), rfl, rfl, rfl, rfl⟩

/-- The body of a comment: any bytes but an LF. -/
theorem reads_comment {body : List UInt8} (h : Ch.lf ∉ body) :
    Reads (fun s => s.mode = .comment ∧ s.words = ws) body
      (fun s => s.mode = .comment ∧ s.words = ws) := by
  induction body with
  | nil => exact Reads.nil
  | cons c body ih =>
    refine Reads.cons ?_ (ih fun hmem => h (List.mem_cons_of_mem _ hmem))
    rintro s ⟨hm, rfl⟩
    have hc : c ≠ Ch.lf := fun heq => h (heq ▸ List.mem_cons_self)
    exact ⟨_, read_comment hm, if_neg hc, rfl⟩

theorem reads_sharp : Reads (AtGap ws) [Ch.sharp] (fun s => s.mode = .comment ∧ s.words = ws) := by
  refine Reads.byte ?_
  rintro s ⟨hm, rfl⟩
  exact ⟨_, (read_gap hm).trans inGap_sharp, rfl, rfl⟩

/-- The LF of a comment. -/
theorem reads_lf :
    Reads (fun s => s.mode = .comment ∧ s.words = ws) [Ch.lf] (AtGap ws) := by
  refine Reads.byte ?_
  rintro s ⟨hm, rfl⟩
  exact ⟨_, read_comment hm, by simp, rfl⟩

theorem reads_layout {ins : List UInt8} (h : Layout ins) : Reads (AtGap ws) ins (AtGap ws) := by
  cases h with
  | blanks h => exact reads_blanks h
  | comment h => exact reads_sharp.append ((reads_comment h).append reads_lf)

/-- What follows bytes that are read is what the call goes on with. -/
theorem Reads.feed {P Q : Lexer → Prop} {xs : List UInt8} {s : Lexer} (h : Reads P xs Q)
    (hs : P s) (ys : List UInt8) : ∃ s', Q s' ∧
      Loop.feed (step none) eof s (xs ++ ys) = Loop.feed (step none) eof s' ys := by
  obtain ⟨s', hadv, hQ⟩ := h s hs
  exact ⟨s', hQ, Loop.feed_advance ys hadv⟩

end Lexer

/-- The rest of a line is read from its place on: the call ends with its code, and with its words
behind those that were read before. -/
theorem Line.feed {p : Place} {ws : List (List UInt8)} {rc : Rc} {t : List UInt8}
    (h : Line p ws rc t) : ∀ {s : Lexer} {ws₀ : List (List UInt8)}, s.At p ws₀ →
      ∀ rest, (rc = .fileDone → rest = []) →
        Loop.feed (Lexer.step none) Lexer.eof s (t ++ rest) = (⟨.ok rc, ws₀ ++ ws⟩, rest) := by
  induction h with
  | fileDone =>
    rintro s ws₀ ⟨hm, rfl, hws⟩ rest hrest
    obtain rfl := hrest rfl
    have hnil : s.words = [] := by simpa using hws
    simp [Lexer.eof, hm, hnil]
  | @comment body h =>
    rintro s ws₀ ⟨hm, rfl, hws⟩ rest hrest
    obtain rfl := hrest rfl
    have hnil : s.words = [] := by simpa using hws
    obtain ⟨s', ⟨hm', hw'⟩, hfeed⟩ := (Lexer.reads_sharp.append (Lexer.reads_comment h)).feed
      (s := s) ⟨hm, rfl⟩ []
    rw [List.singleton_append] at hfeed
    rw [hfeed, Loop.feed_nil]
    simp [Lexer.eof, hm', hw', hnil]
  | blockDone =>
    rintro s ws₀ ⟨hm, rfl, hws⟩ rest -
    have hnil : s.words = [] := by simpa using hws
    have hdone : s.step none Ch.rbrace = .done ⟨.ok .blockDone, []⟩ := by
      simp +decide [Lexer.read, hm, Lexer.inGap, Lexer.ret, hnil]
    simp [Loop.feed_done hdone, hnil]
  | @ok p hp =>
    intro s ws₀ hat rest _
    have hdone : s.step none Ch.semicolon = .done ⟨.ok .ok, ws₀⟩ := by
      cases p with
      | gap b =>
        obtain ⟨hm, rfl, hws⟩ := hat
        cases b with
        | false => exact absurd rfl hp
        | true => simp +decide [Lexer.read, hm, Lexer.inGap, Lexer.ret, hws.mp rfl]
      | bare v =>
        obtain ⟨hm, rfl⟩ := hat
        simp +decide [Lexer.read, hm, Lexer.inWord, Lexer.endWord, Lexer.ret]
      | closed =>
        obtain ⟨hm, rfl, -⟩ := hat
        simp +decide [Lexer.read, hm, Lexer.inClosed, Lexer.ret]
    simp [Loop.feed_done hdone]
  | @blockStart p hp hvar =>
    intro s ws₀ hat rest _
    have hdone : s.step none Ch.lbrace = .done ⟨.ok .blockStart, ws₀⟩ := by
      cases p with
      | gap b =>
        obtain ⟨hm, rfl, hws⟩ := hat
        cases b with
        | false => exact absurd rfl hp
        | true => simp +decide [Lexer.read, hm, Lexer.inGap, Lexer.ret, hws.mp rfl]
      | bare v =>
        obtain ⟨hm, rfl⟩ := hat
        cases v with
        | true => exact absurd rfl hvar
        | false => simp +decide [Lexer.read, hm, Lexer.inWord, Lexer.endWord, Lexer.ret]
      | closed =>
        obtain ⟨hm, rfl, -⟩ := hat
        simp +decide [Lexer.read, hm, Lexer.inClosed, Lexer.ret]
    simp [Loop.feed_done hdone]
  | @layout b ws rc ins t hins _ ih =>
    rintro s ws₀ ⟨hm, hw, hws⟩ rest hrest
    obtain ⟨s', ⟨hm', hw'⟩, hfeed⟩ := (Lexer.reads_layout hins).feed ⟨hm, hw⟩ (t ++ rest)
    rw [List.append_assoc, hfeed]
    exact ih ⟨hm', hw', hws⟩ rest hrest
  | @bare b v ws rc w raw t hw _ ih =>
    rintro s ws₀ ⟨hm, hws, -⟩ rest hrest
    obtain ⟨s', ⟨hm', hws', htext, -⟩, hfeed⟩ :=
      (Lexer.reads_bareWord hw).feed ⟨hm, hws⟩ (t ++ rest)
    rw [List.append_assoc, hfeed]
    have hat : s'.At (.bare v) (ws₀ ++ [w]) := ⟨hm', by rw [hws', htext]⟩
    have hgo := ih hat rest hrest
    rwa [List.append_assoc, List.singleton_append] at hgo
  | @quoted b v ws rc q c w raw t hc hw _ ih =>
    rintro s ws₀ ⟨hm, hws, -⟩ rest hrest
    have hin : Lexer.Reads (Lexer.AtGap ws₀) [c] (Lexer.InWord q false ws₀ [] 0) := by
      refine Lexer.Reads.byte ?_
      rintro s ⟨hm, rfl⟩
      exact ⟨_, (Lexer.read_gap hm).trans (Lexer.inGap_open hc), rfl, rfl, rfl, rfl⟩
    have hout : Lexer.Reads (Lexer.InWord q v ws₀ w (0 + raw.length)) [c]
        (Lexer.AtClosed (ws₀ ++ [w])) := by
      refine Lexer.Reads.byte ?_
      rintro s ⟨hm, rfl, rfl, -⟩
      exact ⟨_, (Lexer.read_word hm).trans (Lexer.inWord_close hc), rfl, rfl⟩
    have hword := hin.append ((Lexer.reads_inside ws₀ hw [] 0).append hout)
    obtain ⟨s', ⟨hm', hws'⟩, hfeed⟩ := hword.feed ⟨hm, hws⟩ (t ++ rest)
    have hat : s'.At .closed (ws₀ ++ [w]) := ⟨hm', hws', by simp⟩
    have hgo := ih hat rest hrest
    rw [List.append_assoc, List.singleton_append] at hgo
    rw [← hgo, ← hfeed]
    simp
  | @blank p ws rc c t hp hc _ ih =>
    intro s ws₀ hat rest hrest
    have hnext : ∃ s', s.step none c = .next s' ∧ s'.At (.gap true) ws₀ := by
      rw [Lexer.step_none]
      cases p with
      | gap b => exact absurd rfl (hp b)
      | bare v =>
        obtain ⟨hm, rfl⟩ := hat
        exact ⟨_, (Lexer.read_word hm).trans (Lexer.inWord_blank hc), rfl, rfl, by simp⟩
      | closed =>
        obtain ⟨hm, rfl, hne⟩ := hat
        exact ⟨_, (Lexer.read_closed hm).trans (Lexer.inClosed_blank hc), rfl, rfl, by simp [hne]⟩
    obtain ⟨s', hstep, hat'⟩ := hnext
    rw [List.cons_append, Loop.feed_next hstep]
    exact ih hat' rest hrest
  | @paren v ws rc w raw t hw _ ih =>
    rintro s ws₀ ⟨hm, hws, -⟩ rest hrest
    have hin : Lexer.Reads (Lexer.AtClosed ws₀) [Ch.rparen]
        (Lexer.InWord .bare false ws₀ [Ch.rparen] 1) := by
      refine Lexer.Reads.byte ?_
      rintro s ⟨hm, rfl⟩
      exact ⟨_, (Lexer.read_closed hm).trans Lexer.inClosed_paren, rfl, rfl, rfl, rfl⟩
    obtain ⟨s', ⟨hm', hws', htext, -⟩, hfeed⟩ := (hin.append (Lexer.reads_inside ws₀ hw _ 1)).feed
      ⟨hm, hws⟩ (t ++ rest)
    have hat : s'.At (.bare v) (ws₀ ++ [Ch.rparen :: w]) := ⟨hm', by rw [hws', htext]; rfl⟩
    have hgo := ih hat rest hrest
    rw [List.append_assoc, List.singleton_append] at hgo
    rw [← hgo, ← hfeed]
    simp

/-! ## 4. What is read is written

In the other direction a call is given, and a line has to be found in its text.  The byte at hand
decides which piece comes next, and the rest is shorter, so that the induction is on the length of
the text; inside a word the text is first followed to where the word ends. -/

namespace Lexer

variable {q : Quote} {v : Bool} {ws words : List (List UInt8)} {rc : Rc} {xs rest : List UInt8}

/-- A call that returns a code does not end inside a word. -/
theorem inside_of_feed : ∀ (n : Nat) {s : Lexer} {v : Bool} {xs : List UInt8}, xs.length ≤ n →
    s.mode = .word q v false →
    Loop.feed (step none) eof s xs = (⟨.ok rc, words⟩, rest) →
      ∃ t raw v' c ys, xs = raw ++ c :: ys ∧ Inside q v t raw v' ∧ q.Ends c ∧
        ¬ (c = Ch.lbrace ∧ v' = true) := by
  have heof : ∀ {s : Lexer} {v e : Bool}, s.mode = .word q v e →
      Loop.feed (step none) eof s [] ≠ (⟨.ok rc, words⟩, rest) := by
    intro s v e hm h
    have hrc := congrArg (fun x => x.1.rc) h
    simp [eof, hm] at hrc
  intro n
  induction n with
  | zero =>
    intro s v xs hlen hm h
    obtain rfl := List.length_eq_zero_iff.mp (Nat.le_zero.mp hlen)
    exact absurd h (heof hm)
  | succ n ih =>
    intro s v xs hlen hm h
    cases xs with
    | nil => exact absurd h (heof hm)
    | cons c xs =>
      have hlen' : xs.length ≤ n := Nat.le_of_succ_le_succ hlen
      -- a byte that leads to a state in the word
      have hgo : ∀ {s' : Lexer} {v' : Bool}, s.inWord q v c = .next s' →
          s'.mode = .word q v' false → ∃ t raw v'' d ys, xs = raw ++ d :: ys ∧
            Inside q v' t raw v'' ∧ q.Ends d ∧ ¬ (d = Ch.lbrace ∧ v'' = true) := by
        intro s' v' hstep hm'
        rw [Loop.feed_next ((step_none s c).trans ((read_word hm).trans hstep))] at h
        exact ih hlen' hm' h
      by_cases hbrace : c = Ch.lbrace ∧ v = true
      · obtain ⟨rfl, rfl⟩ := hbrace
        obtain ⟨t, raw, v', d, ys, rfl, hin, hd, hv⟩ := hgo inWord_brace rfl
        exact ⟨_, _, v', d, ys, rfl, .brace hin, hd, hv⟩
      by_cases hback : c = Ch.backslash
      · subst hback
        rw [Loop.feed_next ((step_none s _).trans ((read_word hm).trans inWord_backslash))] at h
        cases xs with
        | nil => exact absurd h (heof rfl)
        | cons e xs =>
          rw [Loop.feed_next ((step_none _ e).trans (read_esc rfl))] at h
          have hlen'' : xs.length ≤ n := Nat.le_of_succ_le hlen'
          obtain ⟨t, raw, v', d, ys, rfl, hin, hd, hv⟩ := ih hlen'' rfl h
          exact ⟨_, _, v', d, ys, rfl, .escape e hin, hd, hv⟩
      by_cases hdollar : c = Ch.dollar
      · subst hdollar
        obtain ⟨t, raw, v', d, ys, rfl, hin, hd, hv⟩ := hgo inWord_dollar rfl
        exact ⟨_, _, v', d, ys, rfl, .dollar hin, hd, hv⟩
      by_cases hends : q.Ends c
      · exact ⟨[], [], v, c, xs, rfl, .nil, hends, hbrace⟩
      · obtain ⟨t, raw, v', d, ys, rfl, hin, hd, hv⟩ :=
          hgo (inWord_other hback hdollar hbrace hends) rfl
        exact ⟨_, _, v', d, ys, rfl, .plain hback hdollar hbrace hends hin, hd, hv⟩

/-- Nor does it end with an escape: a backslash has a byte behind it. -/
theorem escape_of_feed {s : Lexer} (hm : s.mode = .word q v true)
    (h : Loop.feed (step none) eof s xs = (⟨.ok rc, words⟩, rest)) : ∃ e ys, xs = e :: ys := by
  cases xs with
  | nil =>
    have hrc := congrArg (fun x => x.1.rc) h
    simp [eof, hm] at hrc
  | cons e ys => exact ⟨e, ys, rfl⟩

end Lexer

/-- What a call reads from a place on, with these words read before: the rest of a line. -/
def LineOf (p : Place) (ws₀ words : List (List UInt8)) (rc : Rc) (xs rest : List UInt8) : Prop :=
  ∃ t ws, xs = t ++ rest ∧ words = ws₀ ++ ws ∧ Line p ws rc t ∧ (rc = .fileDone → rest = [])

/-- Up to a length, what a call reads is the rest of a line.  Behind a bare word a byte must come
that ends it. -/
def LinesUpTo (n : Nat) : Prop :=
  ∀ (p : Place) (s : Lexer) (xs rest : List UInt8) (rc : Rc) (ws₀ words : List (List UInt8)),
    xs.length ≤ n → s.At p ws₀ →
    (∀ v, p = .bare v → ∃ d ys, xs = d :: ys ∧ Quote.bare.Ends d ∧ ¬ (d = Ch.lbrace ∧ v = true)) →
    Loop.feed (Lexer.step none) Lexer.eof s xs = (⟨.ok rc, words⟩, rest) →
      LineOf p ws₀ words rc xs rest

namespace LineOf

variable {n : Nat} {p p' r : Place} {s s' : Lexer} {c : UInt8} {xs rest : List UInt8} {rc : Rc}
  {ws₀ words : List (List UInt8)}

/-- The end of the text. -/
theorem of_nil (hat : s.At p ws₀)
    (h : Loop.feed (Lexer.step none) Lexer.eof s [] = (⟨.ok rc, words⟩, rest)) :
    LineOf p ws₀ words rc [] rest := by
  obtain ⟨hlex, rfl⟩ := Prod.mk.inj h
  unfold Lexer.eof at hlex
  split at hlex
  · next hdone =>
    obtain ⟨hrc, rfl⟩ := Lexeme.mk.inj hlex
    obtain rfl := Except.ok.inj hrc
    obtain ⟨hwords, hmode⟩ := hdone
    cases p with
    | gap b =>
      obtain ⟨-, rfl, hb⟩ := hat
      cases b with
      | false => exact ⟨[], [], rfl, (List.append_nil _).symm, .fileDone, fun _ => rfl⟩
      | true => exact absurd hwords (hb.mp rfl)
    | bare v =>
      rw [hat.1] at hmode
      simp at hmode
    | closed =>
      rw [hat.1] at hmode
      simp at hmode
  · cases hlex

/-- A byte that ends the call: it is the terminator of the line, or its `}`. -/
theorem of_done {rc' : Rc} (hread : s.read c = .done ⟨.ok rc', ws₀⟩)
    (h : Loop.feed (Lexer.step none) Lexer.eof s (c :: xs) = (⟨.ok rc, words⟩, rest))
    (hne : rc' ≠ .fileDone) (hline : Line p [] rc' [c]) :
    LineOf p ws₀ words rc (c :: xs) rest := by
  rw [Loop.feed_done ((Lexer.step_none s c).trans hread)] at h
  obtain ⟨ho, rfl⟩ := Prod.mk.inj h
  obtain ⟨hrc, rfl⟩ := Lexeme.mk.inj ho
  obtain rfl := Except.ok.inj hrc
  exact ⟨[c], [], rfl, (List.append_nil _).symm, hline, fun he => absurd he hne⟩

/-- A byte that is not expected. -/
theorem of_error {e : LexError} (hread : s.read c = .done ⟨.error e, ws₀⟩)
    (h : Loop.feed (Lexer.step none) Lexer.eof s (c :: xs) = (⟨.ok rc, words⟩, rest)) :
    LineOf p ws₀ words rc (c :: xs) rest := by
  rw [Loop.feed_done ((Lexer.step_none s c).trans hread)] at h
  cases (Prod.mk.inj h).1

/-- A byte that leads to another place. -/
theorem of_next (ih : LinesUpTo n) (hlen : xs.length ≤ n) (hread : s.read c = .next s')
    (hat : s'.At r ws₀) (hp : ∀ v, r ≠ .bare v)
    (h : Loop.feed (Lexer.step none) Lexer.eof s (c :: xs) = (⟨.ok rc, words⟩, rest)) :
    LineOf r ws₀ words rc xs rest := by
  rw [Loop.feed_next ((Lexer.step_none s c).trans hread)] at h
  exact ih r s' xs rest rc ws₀ words hlen hat (fun v hv => absurd hv (hp v)) h

/-- The inside of a bare word, and what follows it: the text is cut where the word ends, and the
rest is shorter. -/
theorem of_inside (ih : LinesUpTo n) {v : Bool} {u : List UInt8} (hlen : xs.length ≤ n)
    {k : Nat} (hs : s.InWord .bare v ws₀ u k)
    (h : Loop.feed (Lexer.step none) Lexer.eof s xs = (⟨.ok rc, words⟩, rest)) :
    ∃ w raw v' ys, xs = raw ++ ys ∧ Inside .bare v w raw v' ∧
      LineOf (.bare v') (ws₀ ++ [u ++ w]) words rc ys rest := by
  obtain ⟨w, raw, v', d, ys, rfl, hin, hd, hv⟩ := Lexer.inside_of_feed n hlen hs.mode h
  obtain ⟨s', ⟨hm, hw, ht, -⟩, hfeed⟩ := (Lexer.reads_inside ws₀ hin u k).feed hs (d :: ys)
  rw [hfeed] at h
  have hat : s'.At (.bare v') (ws₀ ++ [u ++ w]) := ⟨hm, by rw [hw, ht]⟩
  refine ⟨w, raw, v', d :: ys, rfl, hin, ih _ s' _ rest rc _ words ?_ hat ?_ h⟩
  · simp only [List.length_append] at hlen
    omega
  · rintro _ ⟨⟩
    exact ⟨d, ys, rfl, hd, hv⟩

/-- A word in front. -/
theorem cons {w raw ys : List UInt8} (h : LineOf p' (ws₀ ++ [w]) words rc ys rest)
    (hline : ∀ {ws t}, Line p' ws rc t → Line p (w :: ws) rc (raw ++ t)) :
    LineOf p ws₀ words rc (raw ++ ys) rest := by
  obtain ⟨t, ws, rfl, rfl, ht, hrest⟩ := h
  exact ⟨raw ++ t, w :: ws, by simp, by simp, hline ht, hrest⟩

/-- Bytes in front that are no word. -/
theorem skip {pre ys : List UInt8} (h : LineOf p' ws₀ words rc ys rest)
    (hline : ∀ {ws t}, Line p' ws rc t → Line p ws rc (pre ++ t)) :
    LineOf p ws₀ words rc (pre ++ ys) rest := by
  obtain ⟨t, ws, rfl, rfl, ht, hrest⟩ := h
  exact ⟨pre ++ t, ws, by simp, rfl, hline ht, hrest⟩

/-- A blank behind a word. -/
theorem blank {ys : List UInt8} (h : LineOf (.gap true) ws₀ words rc ys rest)
    (hp : ∀ b, p ≠ .gap b) (hc : isBlank c = true) : LineOf p ws₀ words rc (c :: ys) rest := by
  have hskip : ∀ {ws t}, Line (.gap true) ws rc t → Line p ws rc ([c] ++ t) := .blank hp hc
  exact h.skip hskip

/-- A `#`. -/
theorem of_sharp (ih : LinesUpTo n) (hlen : xs.length ≤ n) {b : Bool} (hat : s.At (.gap b) ws₀)
    (h : Loop.feed (Lexer.step none) Lexer.eof s (Ch.sharp :: xs) = (⟨.ok rc, words⟩, rest)) :
    LineOf (.gap b) ws₀ words rc (Ch.sharp :: xs) rest := by
  obtain ⟨hm, hw, hb⟩ := hat
  by_cases hlf : Ch.lf ∈ xs
  · obtain ⟨body, ys, rfl, hbody⟩ := List.eq_append_cons_of_mem hlf
    have hlayout : Layout (Ch.sharp :: (body ++ [Ch.lf])) := .comment hbody
    obtain ⟨s', ⟨hm', hw'⟩, hfeed⟩ := (Lexer.reads_layout hlayout).feed ⟨hm, hw⟩ ys
    have heq : Ch.sharp :: (body ++ Ch.lf :: ys) = Ch.sharp :: (body ++ [Ch.lf]) ++ ys := by simp
    rw [heq] at h ⊢
    rw [hfeed] at h
    have hlen' : ys.length ≤ n := by
      simp only [List.length_append, List.length_cons] at hlen
      omega
    exact (ih (.gap b) s' ys rest rc ws₀ words hlen' ⟨hm', hw', hb⟩ (by simp) h).skip
      (.layout hlayout)
  · -- the comment goes on to the end of the text
    obtain ⟨s', ⟨hm', hw'⟩, hfeed⟩ := (Lexer.reads_sharp.append (Lexer.reads_comment hlf)).feed
      (s := s) ⟨hm, hw⟩ []
    rw [List.singleton_append, List.append_nil] at hfeed
    rw [hfeed] at h
    obtain ⟨hlex, rfl⟩ := Prod.mk.inj h
    unfold Lexer.eof at hlex
    split at hlex
    · next hdone =>
      obtain ⟨hrc, rfl⟩ := Lexeme.mk.inj hlex
      obtain rfl := Except.ok.inj hrc
      obtain rfl : b = false := by
        rw [hw'] at hdone
        simpa [hdone.1] using hb
      exact ⟨Ch.sharp :: xs, [], by simp, by simp [hw'], .comment hlf, fun _ => rfl⟩
    · cases hlex

/-- A quoted word. -/
theorem of_quoted (ih : LinesUpTo n) (hlen : xs.length ≤ n) {b : Bool} {q : Quote}
    (hc : q.Mark c) (hat : s.At (.gap b) ws₀)
    (h : Loop.feed (Lexer.step none) Lexer.eof s (c :: xs) = (⟨.ok rc, words⟩, rest)) :
    LineOf (.gap b) ws₀ words rc (c :: xs) rest := by
  obtain ⟨hm, rfl, -⟩ := hat
  rw [Loop.feed_next ((Lexer.step_none s c).trans
    ((Lexer.read_gap hm).trans (Lexer.inGap_open hc)))] at h
  obtain ⟨w, raw, v, d, ys, rfl, hin, hd, -⟩ := Lexer.inside_of_feed n hlen rfl h
  obtain rfl : d = c := by cases hc <;> exact hd
  obtain ⟨s', ⟨hm', hw', ht', -⟩, hfeed⟩ :=
    (Lexer.reads_inside s.words hin [] 0).feed
      (s := { s with mode := .word q false false, text := [], since := 0 }) ⟨rfl, rfl, rfl, rfl⟩
      (d :: ys)
  rw [hfeed, Loop.feed_next ((Lexer.step_none s' d).trans
    ((Lexer.read_word hm').trans (Lexer.inWord_close hc)))] at h
  have hlen' : ys.length ≤ n := by
    simp only [List.length_append, List.length_cons] at hlen
    omega
  have hgo := ih .closed _ ys rest rc (s.words ++ [w]) words hlen'
    ⟨rfl, by simp [hw', ht'], by simp⟩ (by simp) h
  have heq : d :: (raw ++ d :: ys) = d :: (raw ++ [d]) ++ ys := by simp
  rw [heq]
  refine hgo.cons fun {ws t} hline => ?_
  have hall := Line.quoted (b := b) hc hin hline
  simpa using hall

/-- A line from a gap on: by what comes first, layout, a comment, a quoted word, a bare word, or an
end. -/
theorem of_gap (ih : LinesUpTo n) (hlen : xs.length ≤ n) {b : Bool} (hat : s.At (.gap b) ws₀)
    (h : Loop.feed (Lexer.step none) Lexer.eof s (c :: xs) = (⟨.ok rc, words⟩, rest)) :
    LineOf (.gap b) ws₀ words rc (c :: xs) rest := by
  have hat' := hat
  obtain ⟨hm, rfl, hb⟩ := hat
  have hread : s.read c = s.inGap c := Lexer.read_gap hm
  by_cases hblank : isBlank c = true
  · have hone : Layout [c] := .blanks (List.forall_mem_singleton.mpr hblank)
    exact (of_next ih hlen (r := .gap b) (hread.trans (Lexer.inGap_blank hblank))
      ⟨rfl, rfl, hb⟩ (by simp) h).skip (.layout hone)
  by_cases hsemi : c = Ch.semicolon
  · subst hsemi
    cases b with
    | false =>
      have hw : s.words = [] := by simpa using hb
      exact of_error (hread.trans (by simp +decide [Lexer.inGap, Lexer.ret, hw]; rfl)) h
    | true =>
      have hw : s.words ≠ [] := hb.mp rfl
      exact of_done (hread.trans (by simp +decide [Lexer.inGap, Lexer.ret, hw])) h
        (by simp) (.ok (by simp))
  by_cases hlb : c = Ch.lbrace
  · subst hlb
    cases b with
    | false =>
      have hw : s.words = [] := by simpa using hb
      exact of_error (hread.trans (by simp +decide [Lexer.inGap, Lexer.ret, hw]; rfl)) h
    | true =>
      have hw : s.words ≠ [] := hb.mp rfl
      exact of_done (hread.trans (by simp +decide [Lexer.inGap, Lexer.ret, hw])) h
        (by simp) (.blockStart (by simp) (by simp))
  by_cases hrb : c = Ch.rbrace
  · subst hrb
    cases b with
    | false =>
      have hw : s.words = [] := by simpa using hb
      exact of_done (hread.trans (by simp +decide [Lexer.inGap, Lexer.ret, hw])) h
        (by simp) .blockDone
    | true =>
      have hw : s.words ≠ [] := hb.mp rfl
      exact of_error (hread.trans (by simp +decide [Lexer.inGap, Lexer.ret, hw]; rfl)) h
  by_cases hsharp : c = Ch.sharp
  · subst hsharp
    exact of_sharp ih hlen hat' h
  by_cases hdq : c = Ch.dquote
  · subst hdq
    exact of_quoted ih hlen .double hat' h
  by_cases hsq : c = Ch.squote
  · subst hsq
    exact of_quoted ih hlen .single hat' h
  by_cases hback : c = Ch.backslash
  · subst hback
    rw [Loop.feed_next ((Lexer.step_none s _).trans (hread.trans Lexer.inGap_backslash))] at h
    obtain ⟨e, ys, rfl⟩ := Lexer.escape_of_feed rfl h
    rw [Loop.feed_next ((Lexer.step_none _ e).trans (Lexer.read_esc rfl))] at h
    obtain ⟨w, raw, v, zs, rfl, hin, hrest⟩ :=
      of_inside ih (Nat.le_of_succ_le hlen) ⟨rfl, rfl, rfl, rfl⟩ h
    exact hrest.cons fun hline => .bare (.escape e hin) hline
  · have hstarts : Lexer.Starts c :=
      ⟨by simpa using hblank, hsemi, hlb, hrb, hsharp, hback, hdq, hsq⟩
    rw [Loop.feed_next ((Lexer.step_none s _).trans
      (hread.trans (Lexer.inGap_starts hstarts s)))] at h
    obtain ⟨w, raw, v, zs, rfl, hin, hrest⟩ := of_inside ih hlen ⟨rfl, rfl, rfl, rfl⟩ h
    exact hrest.cons fun hline => .bare (.plain hstarts hin) hline

/-- A line from behind a bare word on. -/
theorem of_bare (ih : LinesUpTo n) (hlen : xs.length ≤ n) {v : Bool} (hat : s.At (.bare v) ws₀)
    (hends : Quote.bare.Ends c) (hvar : ¬ (c = Ch.lbrace ∧ v = true))
    (h : Loop.feed (Lexer.step none) Lexer.eof s (c :: xs) = (⟨.ok rc, words⟩, rest)) :
    LineOf (.bare v) ws₀ words rc (c :: xs) rest := by
  obtain ⟨hm, rfl⟩ := hat
  have hread : s.read c = s.inWord .bare v c := Lexer.read_word hm
  rcases hends with hblank | rfl | rfl
  · exact (of_next ih hlen (r := .gap true) (hread.trans (Lexer.inWord_blank hblank))
      ⟨rfl, rfl, by simp⟩ (by simp) h).blank (by simp) hblank
  · exact of_done (hread.trans (by simp +decide [Lexer.inWord, Lexer.endWord, Lexer.ret])) h
      (by simp) (.ok (by simp))
  · have hfalse : v = false := by simpa using hvar
    subst hfalse
    exact of_done (hread.trans (by simp +decide [Lexer.inWord, Lexer.endWord, Lexer.ret])) h
      (by simp) (.blockStart (by simp) (by simp))

/-- A line from behind a closing quote on: a blank, an end, or a `)` that begins another word. -/
theorem of_closed (ih : LinesUpTo n) (hlen : xs.length ≤ n) (hat : s.At .closed ws₀)
    (h : Loop.feed (Lexer.step none) Lexer.eof s (c :: xs) = (⟨.ok rc, words⟩, rest)) :
    LineOf .closed ws₀ words rc (c :: xs) rest := by
  obtain ⟨hm, rfl, hne⟩ := hat
  have hread : s.read c = s.inClosed c := Lexer.read_closed hm
  by_cases hblank : isBlank c = true
  · exact (of_next ih hlen (r := .gap true) (hread.trans (Lexer.inClosed_blank hblank))
      ⟨rfl, rfl, by simp [hne]⟩ (by simp) h).blank (by simp) hblank
  by_cases hsemi : c = Ch.semicolon
  · subst hsemi
    exact of_done (hread.trans (by simp +decide [Lexer.inClosed, Lexer.ret])) h
      (by simp) (.ok (by simp))
  by_cases hlb : c = Ch.lbrace
  · subst hlb
    exact of_done (hread.trans (by simp +decide [Lexer.inClosed, Lexer.ret])) h
      (by simp) (.blockStart (by simp) (by simp))
  by_cases hparen : c = Ch.rparen
  · subst hparen
    rw [Loop.feed_next ((Lexer.step_none s _).trans (hread.trans Lexer.inClosed_paren))] at h
    obtain ⟨w, raw, v, zs, rfl, hin, hrest⟩ := of_inside ih hlen ⟨rfl, rfl, rfl, rfl⟩ h
    have hcons : ∀ {ws t}, Line (.bare v) ws rc t →
        Line .closed ((Ch.rparen :: w) :: ws) rc (Ch.rparen :: raw ++ t) :=
      fun hline => .paren hin hline
    exact hrest.cons hcons
  · exact of_error (hread.trans (by
      simp [Lexer.inClosed, hblank, hsemi, hlb, hparen, Lexer.ret]; rfl)) h

end LineOf

/-- What a call reads is the rest of a line.  The induction is on the length of the text. -/
theorem linesUpTo (n : Nat) : LinesUpTo n := by
  induction n with
  | zero =>
    intro p s xs rest rc ws₀ words hlen hat _ h
    obtain rfl := List.length_eq_zero_iff.mp (Nat.le_zero.mp hlen)
    exact .of_nil hat h
  | succ n ih =>
    intro p s xs rest rc ws₀ words hlen hat hends h
    cases xs with
    | nil => exact .of_nil hat h
    | cons c xs =>
      have hlen : xs.length ≤ n := Nat.le_of_succ_le_succ hlen
      cases p with
      | gap b => exact .of_gap ih hlen hat h
      | bare v =>
        obtain ⟨d, ys, heq, hd, hv⟩ := hends v rfl
        obtain ⟨rfl, rfl⟩ := List.cons.inj heq
        exact .of_bare ih hlen hat hd hv h
      | closed => exact .of_closed ih hlen hat h

/-- **What a line is**: a call reads these words, up to the code of their end, just when their line
is what it takes. -/
theorem lex_iff {text rest : List UInt8} {rc : Rc} {ws : List (List UInt8)} :
    lex none text = (⟨.ok rc, ws⟩, rest) ↔
      ∃ t, text = t ++ rest ∧ Line (.gap false) ws rc t ∧ (rc = .fileDone → rest = []) := by
  have hstart : Lexer.start.At (.gap false) [] := ⟨rfl, rfl, by simp⟩
  constructor
  · intro h
    obtain ⟨t, ws', rfl, rfl, hline, hrest⟩ :=
      linesUpTo text.length _ _ text rest rc [] ws (Nat.le_refl _) hstart (by simp) h
    exact ⟨t, rfl, hline, hrest⟩
  · rintro ⟨t, rfl, hline, hrest⟩
    exact hline.feed hstart rest hrest

/-! ## 5. Texts and trees

`Written` has no memory: a tree is written as a line for each item, and behind the line of a block
come its items and the `}`.  Since a text starts with one line at most, it is written for one tree
at most. -/

/-- The texts of a tree, up to the end of the file or the `}` of its block: a line for each
directive, and behind the line of a block the text of its body. -/
inductive Written : Rc → List Item → List UInt8 → Prop
  | stop {rc : Rc} {t : List UInt8} (hend : rc = .blockDone ∨ rc = .fileDone)
      (h : Line (.gap false) [] rc t) : Written rc [] t
  | simple {rc : Rc} {ws : List (List UInt8)} {items : List Item} {t u : List UInt8}
      (h : Line (.gap false) ws .ok t) (hrest : Written rc items u) :
      Written rc (.simple ws :: items) (t ++ u)
  | block {rc : Rc} {ws : List (List UInt8)} {body items : List Item} {t b u : List UInt8}
      (h : Line (.gap false) ws .blockStart t) (hbody : Written .blockDone body b)
      (hrest : Written rc items u) : Written rc (.block ws body :: items) (t ++ (b ++ u))

/-- The words of each directive are as `P` says, in blocks too. -/
inductive Each (P : List (List UInt8) → Prop) : List Item → Prop
  | nil : Each P []
  | simple {ws : List (List UInt8)} {items : List Item} (hws : P ws) (h : Each P items) :
      Each P (.simple ws :: items)
  | block {ws : List (List UInt8)} {body items : List Item} (hws : P ws) (hbody : Each P body)
      (h : Each P items) : Each P (.block ws body :: items)

theorem Line.lex {ws : List (List UInt8)} {rc : Rc} {t : List UInt8}
    (h : Line (.gap false) ws rc t) (rest : List UInt8) (hrest : rc = .fileDone → rest = []) :
    lex none (t ++ rest) = (⟨.ok rc, ws⟩, rest) :=
  lex_iff.mpr ⟨t, rfl, h, hrest⟩

/-- Two lines with which one text starts are one line. -/
theorem Line.unique {ws ws' : List (List UInt8)} {rc rc' : Rc} {t t' rest rest' : List UInt8}
    (h : Line (.gap false) ws rc t) (h' : Line (.gap false) ws' rc' t')
    (heq : t ++ rest = t' ++ rest') (hrest : rc = .fileDone → rest = [])
    (hrest' : rc' = .fileDone → rest' = []) : rc = rc' ∧ ws = ws' ∧ rest = rest' := by
  have hlex := h.lex rest hrest
  rw [heq, h'.lex rest' hrest'] at hlex
  obtain ⟨hl, rfl⟩ := Prod.mk.inj hlex
  obtain ⟨hrc, rfl⟩ := Lexeme.mk.inj hl
  exact ⟨(Except.ok.inj hrc).symm, rfl, rfl⟩

/-- A text is written for one tree at most, and so is the start of a text that ends where the tree
does. -/
theorem Written.unique {rc : Rc} {items : List Item} {t : List UInt8} (h : Written rc items t) :
    ∀ {rc' : Rc} {items' : List Item} {t' rest rest' : List UInt8}, Written rc' items' t' →
      t ++ rest = t' ++ rest' → (rc = .fileDone → rest = []) → (rc' = .fileDone → rest' = []) →
        rc = rc' ∧ items = items' ∧ rest = rest' := by
  induction h with
  | @stop rc t hend h =>
    intro rc' items' t' rest rest' h' heq hrest hrest'
    cases h' with
    | stop hend' h' =>
      obtain ⟨hrc, -, hr⟩ := h.unique h' heq hrest hrest'
      exact ⟨hrc, rfl, hr⟩
    | simple h' _ =>
      simp only [List.append_assoc] at heq
      obtain ⟨rfl, -⟩ := h.unique h' heq hrest (by simp)
      rcases hend with hend | hend <;> cases hend
    | block h' _ _ =>
      simp only [List.append_assoc] at heq
      obtain ⟨rfl, -⟩ := h.unique h' heq hrest (by simp)
      rcases hend with hend | hend <;> cases hend
  | @simple rc ws items t u h _ ih =>
    intro rc' items' t' rest rest' h' heq hrest hrest'
    simp only [List.append_assoc] at heq
    cases h' with
    | stop hend' h' =>
      obtain ⟨rfl, -⟩ := h.unique h' heq (by simp) hrest'
      rcases hend' with hend | hend <;> cases hend
    | simple h' hu =>
      simp only [List.append_assoc] at heq
      obtain ⟨-, rfl, heq⟩ := h.unique h' heq (by simp) (by simp)
      obtain ⟨hrc, rfl, hr⟩ := ih hu heq hrest hrest'
      exact ⟨hrc, rfl, hr⟩
    | block h' _ _ =>
      simp only [List.append_assoc] at heq
      obtain ⟨hrc, -⟩ := h.unique h' heq (by simp) (by simp)
      cases hrc
  | @block rc ws body items t b u h _ _ ihbody ih =>
    intro rc' items' t' rest rest' h' heq hrest hrest'
    simp only [List.append_assoc] at heq
    cases h' with
    | stop hend' h' =>
      obtain ⟨rfl, -⟩ := h.unique h' heq (by simp) hrest'
      rcases hend' with hend | hend <;> cases hend
    | simple h' _ =>
      simp only [List.append_assoc] at heq
      obtain ⟨hrc, -⟩ := h.unique h' heq (by simp) (by simp)
      cases hrc
    | block h' hb hu =>
      simp only [List.append_assoc] at heq
      obtain ⟨-, rfl, heq⟩ := h.unique h' heq (by simp) (by simp)
      obtain ⟨-, rfl, heq⟩ := ihbody hb heq (by simp) (by simp)
      obtain ⟨hrc, rfl, hr⟩ := ih hu heq hrest hrest'
      exact ⟨hrc, rfl, hr⟩

/-! ## 6. Printing

Every word is put between double quotes, so that only a backslash and a double quote need an
escape, and a blank goes behind it.  The text that comes out is written for the tree it was made
from. -/

/-- A byte between double quotes: a quote and a backslash get a backslash in front, and the others
stand as they are. -/
def printByte (c : UInt8) : List UInt8 :=
  if c = Ch.dquote ∨ c = Ch.backslash then [Ch.backslash, c] else [c]

def printWord (w : List UInt8) : List UInt8 := Ch.dquote :: (w.flatMap printByte ++ [Ch.dquote])

def printLine (ws : List (List UInt8)) (term : UInt8) : List UInt8 :=
  ws.flatMap (fun w => printWord w ++ [Ch.space]) ++ [term]

mutual

def Item.print : Item → List UInt8
  | .simple ws => printLine ws Ch.semicolon
  | .block ws body => printLine ws Ch.lbrace ++ (printItems body ++ [Ch.rbrace])

/-- The text of a tree. -/
def printItems : List Item → List UInt8
  | [] => []
  | item :: items => item.print ++ printItems items

end

theorem inside_print : ∀ (w : List UInt8) (v : Bool),
    ∃ v', Inside .double v w (w.flatMap printByte) v' := by
  intro w
  induction w with
  | nil => exact fun v => ⟨v, .nil⟩
  | cons c w ih =>
    intro v
    rw [List.flatMap_cons]
    by_cases hquote : c = Ch.dquote ∨ c = Ch.backslash
    · obtain ⟨v', h⟩ := ih false
      have hdec : decodeEsc c = [c] := by
        rcases hquote with rfl | rfl <;> decide
      have hcons := Inside.escape (v := v) c h
      rw [hdec] at hcons
      rw [printByte, if_pos hquote]
      exact ⟨v', hcons⟩
    · rw [printByte, if_neg hquote]
      by_cases hdollar : c = Ch.dollar
      · obtain ⟨v', h⟩ := ih true
        exact ⟨v', hdollar ▸ .dollar h⟩
      by_cases hbrace : c = Ch.lbrace ∧ v = true
      · obtain ⟨rfl, rfl⟩ := hbrace
        obtain ⟨v', h⟩ := ih true
        exact ⟨v', .brace h⟩
      · obtain ⟨v', h⟩ := ih false
        exact ⟨v', .plain (fun he => hquote (Or.inr he)) hdollar hbrace
          (fun he => hquote (Or.inl he)) h⟩

theorem line_print {rc : Rc} {term : UInt8} (hterm : Ends term rc) :
    ∀ (ws : List (List UInt8)) (b : Bool), b = true ∨ ws ≠ [] →
      Line (.gap b) ws rc (printLine ws term) := by
  intro ws
  induction ws with
  | nil =>
    intro b hb
    obtain rfl := hb.resolve_right (not_not.mpr rfl)
    cases hterm with
    | semicolon => exact .ok (by simp)
    | lbrace => exact .blockStart (by simp) (by simp)
  | cons w ws ih =>
    intro b _
    obtain ⟨v, hin⟩ := inside_print w false
    have hrest := Line.blank (p := .closed) (c := Ch.space) (by simp) (by decide)
      (ih true (Or.inl rfl))
    have hall := Line.quoted (b := b) .double hin hrest
    have heq : printLine (w :: ws) term
        = Ch.dquote :: (w.flatMap printByte ++ Ch.dquote :: (Ch.space :: printLine ws term)) := by
      simp [printLine, printWord]
    rw [heq]
    exact hall

/-- The text of a tree is written for it, up to any end.  The induction is on the tree, along
`Each`. -/
theorem written_print {items : List Item} (h : Each (· ≠ []) items) :
    ∀ {rc : Rc} {tail : List UInt8}, rc = .blockDone ∨ rc = .fileDone →
      Line (.gap false) [] rc tail → Written rc items (printItems items ++ tail) := by
  induction h with
  | nil =>
    intro rc tail hend htail
    rw [printItems, List.nil_append]
    exact .stop hend htail
  | @simple ws items hws _ ih =>
    intro rc tail hend htail
    rw [printItems, List.append_assoc, Item.print]
    exact .simple (line_print .semicolon ws false (Or.inr hws)) (ih hend htail)
  | @block ws body items hws _ _ ihbody ih =>
    intro rc tail hend htail
    rw [printItems, Item.print, List.append_assoc, List.append_assoc]
    exact .block (line_print .lbrace ws false (Or.inr hws)) (ihbody (Or.inl rfl) .blockDone)
      (ih hend htail)

end Capwap
