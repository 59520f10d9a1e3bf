/-
# Blanks and comments carry no meaning

Blanks, and comments with the LF that ends them, may be put into a text wherever the tokenizer
stands between words: successive calls return the same codes and the same words.

The two runs are compared round by round.  `Twin` relates two states of the loop that have the
same flags, words and world, and hold the same bytes of the current word, each in its own buffer;
a byte that is next in both keeps it (`Twin.step`).  The inserted bytes lead from the flags of the
entry back to them (`glides_insert`).  None of this asks that allocations succeed.  Where they do, a
place with these flags is a place between words of the text (`free_iff`).
-/
import Capwap.Conf.Variables

namespace Capwap

/-! ## 1. Places, and what is put there

A place is given by the bytes before it.  There are two ways to say that it is between words: the
lexer has read these bytes, call after call, and is in a gap (`BetweenWords`); or the scanner has,
and its flags are those it starts a call with (`Free`).  The first is about the text, the second
about the code. -/

/-- A run of blanks, or a comment with the LF that ends it. -/
inductive Layout : List UInt8 → Prop
  | blanks {bs : List UInt8} (h : Blanks bs) : Layout bs
  | comment {body : List UInt8} (h : Ch.lf ∉ body) : Layout (Ch.sharp :: (body ++ [Ch.lf]))

/-- One byte of a text, over the end of a call. -/
def Lexer.scanOn (s : Lexer) (ch : UInt8) : Lexer :=
  match s.read ch with
  | .next s' => s'
  | .done _ => .start

/-- Where the lexer stands after some bytes of a text. -/
def standOn (pre : List UInt8) : Lexer := pre.foldl Lexer.scanOn .start

/-- The place behind these bytes is not in a word, a quote or a comment, nor right behind a closing
quote. -/
def BetweenWords (pre : List UInt8) : Prop := (standOn pre).mode = .gap

/-- Only a blank leads from a word to a place between words. -/
theorem Lexer.inWord_next_gap {s s' : Lexer} {q : Quote} {var : Bool} {c : UInt8}
    (h : s.inWord q var c = .next s') : s'.mode = .gap ↔ isBlank c = true ∧ q = .bare := by
  have hblank : isBlank c = true → c ≠ Ch.lbrace ∧ c ≠ Ch.backslash ∧ c ≠ Ch.dollar := by
    intro hc
    refine ⟨?_, ?_, ?_⟩ <;> (rintro rfl; simp +decide at hc)
  unfold Lexer.inWord at h
  split_ifs at h with hopen hback hdollar hends
  · cases h
    simp [hopen.1, show isBlank Ch.lbrace = false by decide]
  · cases h
    simp [hback, show isBlank Ch.backslash = false by decide]
  · cases h
    simp [hdollar, show isBlank Ch.dollar = false by decide]
  · unfold Lexer.endWord Lexer.ret at h
    split_ifs at h with hq hsemi hlb
    · cases h
      simp [hq]
    · cases h
      have hq' : q = .bare := not_not.mp hq
      subst hq'
      simp only [true_iff, and_true]
      exact hends.resolve_right (fun h => h.elim hsemi hlb)
  · cases h
    simp only [reduceCtorEq, false_iff, not_and]
    rintro hc rfl
    exact hends (Or.inl hc)

/-- What the definition comes to: a place between words is the start of a text, or stands behind a
byte that ends a call, or behind a blank that ends a word or comes after one, or behind the LF of a
comment. -/
theorem betweenWords_snoc (pre : List UInt8) (c : UInt8) :
    BetweenWords (pre ++ [c]) ↔
      (∃ o, (standOn pre).read c = .done o) ∨
      (isBlank c = true ∧ ((standOn pre).mode = .gap ∨ (standOn pre).mode = .closed ∨
        ∃ var, (standOn pre).mode = .word .bare var false)) ∨
      (c = Ch.lf ∧ (standOn pre).mode = .comment) := by
  unfold BetweenWords
  rw [standOn, List.foldl_append, List.foldl_cons, List.foldl_nil, ← standOn]
  generalize standOn pre = s
  cases hr : s.read c with
  | done o => simp [Lexer.scanOn, hr, Lexer.start]
  | next s' =>
    simp only [Lexer.scanOn, hr, reduceCtorEq]
    cases hm : s.mode with
    | gap =>
      rw [Lexer.read_gap hm] at hr
      unfold Lexer.inGap Lexer.ret at hr
      split_ifs at hr with hblank <;> cases hr <;> simp [hblank]
    | comment =>
      simp only [Lexer.read, hm, Step.next.injEq] at hr
      subst hr
      simp
    | closed =>
      rw [Lexer.read_closed hm] at hr
      unfold Lexer.inClosed Lexer.inGap Lexer.ret at hr
      split_ifs at hr with hblank <;> cases hr <;> simp [hblank]
    | word q var esc =>
      cases esc with
      | true =>
        simp only [Lexer.read, hm, Step.next.injEq] at hr
        subst hr
        simp
      | false =>
        rw [Lexer.read_word hm] at hr
        rw [Lexer.inWord_next_gap hr]
        simp [and_comm]

section
variable {σ : Type} {S : Sys σ}

/-- What a caller sees of a call, without the line. -/
def seen (x : TokenResult σ × Nat) : Int × List Word := (x.1.code, x.1.args)

/-- The loop after so many rounds, over the ends of calls. -/
def rounds (S : Sys σ) : Nat → Tok σ → Tok σ
  | 0, t => t
  | n + 1, t =>
    match tokenStep S t with
    | .next t' => rounds S n t'
    | .done r => rounds S n (Tok.init S r.conf r.world)

/-- Behind the bytes `pre` of a text the flags are those of the entry. -/
def Free (S : Sys σ) (w : σ) (pre post : List UInt8) : Prop :=
  (rounds S pre.length (Tok.init S (.param (pre ++ post)) w)).flags = .start

/-! ## 2. One byte of a text in memory

In memory a round is a byte: there is no refill, and what is done with the byte depends on the
flags, and on whether there are words.  The word that is copied at its end is the bytes of the
buffer since its start, so one has to know that a start is set before a word can end. -/

variable {T T' : List UInt8} {t t' : Tok σ} {c : UInt8} {xs xs' : List UInt8}

/-- In memory there is nothing to refill, and a round is one byte. -/
theorem tokenStep_memory {f : Flags} {mv : Move} (h : t.conf.Holds S (Source.memory T) (c :: xs))
    (hb : scanByte t.flags t.args.length c = (f, mv)) :
    t.conf.buffer.bytes[t.conf.buffer.pos]? = some c ∧ tokenStep S t = t.after S c f mv := by
  obtain ⟨hpos, hbytes⟩ := h.pos_eq
  rw [List.length_cons, ← hbytes] at hpos
  have hlt : t.conf.buffer.pos < t.conf.buffer.bytes.length := by omega
  have hc := h.head hlt
  have hrefill : refill S t = .next t := by
    unfold refill
    rw [if_neg (by omega)]
  refine ⟨hc, ?_⟩
  unfold tokenStep
  rw [hrefill]
  exact scan_eq S hc hb

/-- A word goes on or ends only inside a word, and an item starts at a byte or right behind it. -/
structure WordMoves (f : Flags) (r : Flags × Move) : Prop where
  go : r.2 = .go → r.1.lastSpace = false → f.lastSpace = false
  word : r.2 = .word → f.lastSpace = false
  mark : ∀ skip, r.2 = .mark skip → skip ≤ 1

theorem betweenWords_wordMoves (f : Flags) (n : Nat) (c : UInt8) :
    WordMoves f (betweenWords f n c) := by
  unfold betweenWords
  split_ifs <;> constructor <;> simp

theorem insideWord_wordMoves {f : Flags} (h : f.lastSpace = false) (c : UInt8) :
    WordMoves f (insideWord f c) := by
  unfold insideWord
  simp only
  split_ifs <;> constructor <;> simp [h]

theorem scanText_wordMoves (f : Flags) (n : Nat) (c : UInt8) : WordMoves f (scanText f n c) := by
  unfold scanText
  cases h : f.lastSpace with
  | true => exact betweenWords_wordMoves f n c
  | false => exact insideWord_wordMoves h c

theorem scanByte_wordMoves (f : Flags) (n : Nat) (c : UInt8) : WordMoves f (scanByte f n c) := by
  unfold scanByte
  -- the LF that ends a comment leaves the rest as it is
  have hlast : (if c = Ch.lf then { f with sharpComment := false } else f).lastSpace
      = f.lastSpace := by
    split <;> rfl
  generalize (if c = Ch.lf then { f with sharpComment := false } else f) = g at hlast
  have hmono : ∀ {r}, WordMoves g r → WordMoves f r := by
    rintro r ⟨hgo, hword, hmark⟩
    rw [hlast] at hgo hword
    exact ⟨hgo, hword, hmark⟩
  apply hmono
  simp only
  split_ifs
  · exact ⟨fun _ h => h, by simp, by simp⟩
  · exact ⟨fun _ h => h, by simp, by simp⟩
  · exact ⟨fun _ h => (by cases h), by simp, by simp⟩
  · exact ⟨by simp, by simp, by simp⟩
  · exact ⟨by simp, by simp, by simp⟩
  · -- a `)` behind a closing quote starts a word
    obtain ⟨hgo, hword, hmark⟩ :=
      scanText_wordMoves { g with lastSpace := true, needSpace := false } n c
    exact ⟨fun h h' => (by cases hgo h h'), fun h => (by cases hword h), hmark⟩
  · exact ⟨by simp, by simp, by simp⟩
  · exact scanText_wordMoves g n c

/-! ## 3. The copy of a word

The two runs have the same word in buffers that differ before it and behind it.  The copy goes up
to the byte that ends the word, which belongs to both, and so the result is the same. -/

/-- The copy reads no further than the byte that ends the word. -/
theorem copyLoop_congr {mem mem' : List UInt8} {stop stop' : Nat} : ∀ (n src src' : Nat),
    src + stop' = src' + stop →
    (∀ i i', i + stop' = i' + stop → src ≤ i → i ≤ stop → mem.getD i 0 = mem'.getD i' 0) →
    (copyLoop mem stop n src).1 = (copyLoop mem' stop' n src').1 := by
  intro n
  induction n with
  | zero =>
    intro src src' _ _
    rfl
  | succ n ih =>
    intro src src' heq hbytes
    unfold copyLoop
    by_cases hlt : src < stop
    · have hlt' : src' < stop' := by omega
      have h0 : mem.getD src 0 = mem'.getD src' 0 := hbytes _ _ heq (Nat.le_refl _) (by omega)
      have h1 : mem.getD (src + 1) 0 = mem'.getD (src' + 1) 0 :=
        hbytes _ _ (by omega) (by omega) (by omega)
      obtain ⟨k, hk, hk'⟩ : ∃ k, (copyByte mem src).2 = src + k ∧
          (copyByte mem' src').2 = src' + k := by
        unfold copyByte
        rw [h0, h1]
        simp only
        split_ifs <;> exact ⟨_, rfl, rfl⟩
      have hbyte : (copyByte mem src).1 = (copyByte mem' src').1 := by
        unfold copyByte
        rw [h0, h1]
        simp only
        split_ifs <;> rfl
      rw [if_pos hlt, if_pos hlt', hk, hk', hbyte]
      simp only [List.cons.injEq, true_and]
      exact ih _ _ (by omega) fun i i' he hle hle' => hbytes i i' he (by omega) hle'
    · rw [if_neg hlt, if_neg (by omega)]

theorem slice_getD {mem : List UInt8} {start stop : Nat} {k : Nat} (h : k < stop - start) :
    (slice mem start stop).getD k 0 = mem.getD (start + k) 0 := by
  unfold slice
  rw [List.getD_eq_getElem?_getD, List.getD_eq_getElem?_getD, List.getElem?_take, if_pos h,
    List.getElem?_drop]

/-- Slices that agree up to the byte behind the word give the same word. -/
theorem copyWord_congr {mem mem' : List UInt8} {start stop start' stop' : Nat}
    (hle : start ≤ stop) (hlen : stop - start = stop' - start') (hle' : start' ≤ stop')
    (h : slice mem start (stop + 1) = slice mem' start' (stop' + 1)) :
    copyWord mem start stop = copyWord mem' start' stop' := by
  have hcopy : (copyLoop mem stop (stop - start) start).1
      = (copyLoop mem' stop' (stop - start) start').1 := by
    refine copyLoop_congr _ _ _ (by omega) fun i i' he hi hi' => ?_
    obtain ⟨k, rfl⟩ : ∃ k, i = start + k := ⟨i - start, by omega⟩
    obtain rfl : i' = start' + k := by omega
    rw [← slice_getD (by omega : k < stop + 1 - start), h, slice_getD (by omega)]
  simp only [copyWord, hcopy, ← hlen]

/-! ## 4. Two runs side by side

Behind the place of the insertion the texts are the same, and before it too; what differs is at
which index of its buffer each run stands.  So states are compared up to that: flags, words, world,
and the bytes of the current word. -/

/-- Two states of the loop that differ in the text before the current word, and in what follows.
The flags, the words and the world are equal, and the current word has the same bytes in both. -/
structure Twin (S : Sys σ) (T T' : List UInt8) (t t' : Tok σ) (xs xs' : List UInt8) : Prop where
  holds : t.conf.Holds S (Source.memory T) xs
  holds' : t'.conf.Holds S (Source.memory T') xs'
  flags : t'.flags = t.flags
  args : t'.args = t.args
  world : t'.world = t.world
  start_le : t.start ≤ t.conf.buffer.pos
  start_le' : t'.start ≤ t'.conf.buffer.pos
  raw : t.flags.lastSpace = false → t'.raw = t.raw

/-- Two results that differ in the text that follows. -/
structure Echo (S : Sys σ) (T T' : List UInt8) (r r' : TokenResult σ) (xs xs' : List UInt8) :
    Prop where
  rc : r'.rc = r.rc
  args : r'.args = r.args
  world : r'.world = r.world
  holds : r.conf.Holds S (Source.memory T) xs
  holds' : r'.conf.Holds S (Source.memory T') xs'

/-- Two runs after the same byte. -/
inductive Abreast (S : Sys σ) (T T' : List UInt8) (xs xs' : List UInt8) :
    Step (Tok σ) (TokenResult σ) → Step (Tok σ) (TokenResult σ) → Prop
  | next {t t' : Tok σ} (h : Twin S T T' t t' xs xs') : Abreast S T T' xs xs' (.next t) (.next t')
  | done {r r' : TokenResult σ} (h : Echo S T T' r r' xs xs') :
      Abreast S T T' xs xs' (.done r) (.done r')

theorem Twin.init {conf conf' : ConfFile} (h : conf.Holds S (Source.memory T) xs)
    (h' : conf'.Holds S (Source.memory T') xs') (w : σ) :
    Twin S T T' (Tok.init S conf w) (Tok.init S conf' w) xs xs' :=
  ⟨h, h', rfl, rfl, rfl, Nat.le_refl _, Nat.le_refl _, fun hf => by cases hf⟩

/-- A byte that is next in both runs leads to two such states, or ends both calls alike. -/
theorem Twin.step (h : Twin S T T' t t' (c :: xs) (c :: xs')) :
    Abreast S T T' xs xs' (tokenStep S t) (tokenStep S t') := by
  obtain ⟨f, mv, hb⟩ : ∃ f mv, scanByte t.flags t.args.length c = (f, mv) := ⟨_, _, rfl⟩
  have hb' : scanByte t'.flags t'.args.length c = (f, mv) := by rw [h.flags, h.args, hb]
  obtain ⟨hgo, hword, hmark⟩ := scanByte_wordMoves t.flags t.args.length c
  rw [hb] at hgo hword hmark
  obtain ⟨hc, hstep⟩ := tokenStep_memory h.holds hb
  obtain ⟨hc', hstep'⟩ := tokenStep_memory h.holds' hb'
  have hholds := h.holds.advance hc
  have hholds' := h.holds'.advance hc'
  have hle := h.start_le
  have hle' := h.start_le'
  -- the bytes of the word, with this one
  have hraw : ∀ {u : Tok σ}, u.start ≤ u.conf.buffer.pos →
      u.conf.buffer.bytes[u.conf.buffer.pos]? = some c →
      slice u.conf.buffer.bytes u.start (u.conf.buffer.pos + 1) = u.raw ++ [c] :=
    fun hle hc => slice_snoc hle hc
  have hmore : t.flags.lastSpace = false →
      slice t'.conf.buffer.bytes t'.start (t'.conf.buffer.pos + 1)
        = slice t.conf.buffer.bytes t.start (t.conf.buffer.pos + 1) := by
    intro hin
    rw [hraw hle hc, hraw hle' hc', h.raw hin]
  rw [hstep, hstep']
  cases mv with
  | go =>
    refine .next ⟨hholds, hholds', rfl, h.args, h.world, ?_, ?_, fun hl => hmore (hgo rfl hl)⟩
    · exact Nat.le_succ_of_le hle
    · exact Nat.le_succ_of_le hle'
  | mark skip =>
    have hskip := hmark skip rfl
    have hone : ∀ {mem : List UInt8} {i : Nat}, mem[i]? = some c →
        slice mem (i + skip) (i + 1) = if skip = 0 then [c] else [] := by
      intro mem i hi
      split
      · rename_i h0
        rw [h0, Nat.add_zero, slice_snoc (Nat.le_refl _) hi, slice_self, List.nil_append]
      · rw [show skip = 1 by omega, slice_self]
    refine .next ⟨hholds, hholds', rfl, h.args, h.world, ?_, ?_, ?_⟩
    · exact Nat.add_le_add_left hskip _
    · exact Nat.add_le_add_left hskip _
    · intro _
      exact (hone hc').trans (hone hc).symm
  | ret rc => exact .done ⟨rfl, h.args, h.world, hholds, hholds'⟩
  | fail => exact .done ⟨rfl, h.args, h.world, hholds, hholds'⟩
  | word =>
    have hin := hword rfl
    have hlen : t'.conf.buffer.pos - t'.start = t.conf.buffer.pos - t.start := by
      have hraws := congrArg List.length (h.raw hin)
      rwa [Tok.raw, Tok.raw, slice_length h.holds'.pos_le, slice_length h.holds.pos_le] at hraws
    have hcopy : copyWord t'.conf.buffer.bytes t'.start t'.conf.buffer.pos
        = copyWord t.conf.buffer.bytes t.start t.conf.buffer.pos :=
      copyWord_congr hle' hlen hle (hmore hin)
    simp only [Tok.after, pushWord, h.world, h.args]
    -- the allocations see the same world and the same size
    cases S.arrayPush t.world with
    | mk pushed w =>
      cases pushed with
      | false => exact .done ⟨rfl, rfl, rfl, hholds, hholds'⟩
      | true =>
        simp only [hlen]
        cases S.pnalloc (t.conf.buffer.pos - t.start + 1) w with
        | mk got w' =>
          cases got with
          | false => exact .done ⟨rfl, rfl, rfl, hholds, hholds'⟩
          | true =>
            simp only [ConfFile.advance, hcopy]
            by_cases hsemi : c = Ch.semicolon
            · rw [if_pos hsemi, if_pos hsemi]
              exact .done ⟨rfl, rfl, rfl, hholds, hholds'⟩
            · rw [if_neg hsemi, if_neg hsemi]
              by_cases hopen : c = Ch.lbrace
              · rw [if_pos hopen, if_pos hopen]
                exact .done ⟨rfl, rfl, rfl, hholds, hholds'⟩
              · rw [if_neg hopen, if_neg hopen]
                refine .next ⟨hholds, hholds', rfl, rfl, rfl, ?_, ?_, fun _ => hmore hin⟩
                · exact Nat.le_succ_of_le hle
                · exact Nat.le_succ_of_le hle'

/-- The end of both texts. -/
theorem Twin.finish (h : Twin S T T' t t' [] []) :
    ∃ r r', tokenStep S t = .done r ∧ tokenStep S t' = .done r' ∧ Echo S T T' r r' [] [] := by
  have hend : ∀ {T : List UInt8} {u : Tok σ}, u.conf.Holds S (Source.memory T) [] →
      tokenStep S u = if u.args.length > 0 ∨ u.flags.lastSpace = false then
        u.fail (.unexpectedEnd true) else u.ret .fileDone := by
    intro T u hu
    obtain ⟨hpos, hbytes⟩ := hu.pos_eq
    rw [List.length_nil, ← hbytes] at hpos
    have hsize : u.conf.file.size = 0 := hu.size_eq
    have hfd : u.conf.file.fd = invalidFile := hu.fd_eq
    unfold tokenStep refill
    rw [if_pos (by omega), if_pos (by omega), hfd]
    split_ifs <;> rfl
  rw [hend h.holds, hend h.holds', h.args, h.flags]
  split_ifs
  · exact ⟨_, _, rfl, rfl, rfl, h.args, h.world, h.holds, h.holds'⟩
  · exact ⟨_, _, rfl, rfl, rfl, h.args, h.world, h.holds, h.holds'⟩

/-- From states with the same text to come the two runs end alike.  The induction is on the text. -/
theorem Twin.run : ∀ {xs : List UInt8} {t t' : Tok σ} {n n' : Nat}, Twin S T T' t t' xs xs →
    xs.length < n → xs.length < n' → ∃ r r' rest, Loop.run (tokenStep S) n t = some r ∧
      Loop.run (tokenStep S) n' t' = some r' ∧ Echo S T T' r r' rest rest
  | [], t, t', n + 1, n' + 1, h, _, _ => by
    obtain ⟨r, r', hr, hr', hecho⟩ := h.finish
    exact ⟨r, r', [], Loop.run_done hr n, Loop.run_done hr' n', hecho⟩
  | c :: xs, t, t', n + 1, n' + 1, h, hn, hn' => by
    have hstep := h.step
    simp only [List.length_cons] at hn hn'
    generalize hs : tokenStep S t = a at hstep
    generalize hs' : tokenStep S t' = b at hstep
    cases hstep with
    | next hnext =>
      rw [Loop.run_next hs, Loop.run_next hs']
      exact Twin.run hnext (by omega) (by omega)
    | @done r r' hecho => exact ⟨r, r', xs, Loop.run_done hs n, Loop.run_done hs' n', hecho⟩

/-! ## 5. The inserted bytes

A blank in a gap changes nothing but the position.  A comment sets a flag at its `#` and clears it
at its LF, and in between nothing else happens.  So layout glides by, and what it leaves is the
state before it, further on in the text. -/

/-- The loop gets from one state to another, on the bytes `xs` of a text in memory, with no more
than the position changed. -/
structure Glides (S : Sys σ) (T xs rest : List UInt8) (f : Flags) (t t' : Tok σ) : Prop where
  run : ∀ n, Loop.run (tokenStep S) (n + xs.length) t = Loop.run (tokenStep S) n t'
  holds : t'.conf.Holds S (Source.memory T) rest
  flags : t'.flags = f
  args : t'.args = t.args
  world : t'.world = t.world
  start_le : t'.start ≤ t'.conf.buffer.pos

/-- Flags under which the bytes `xs` are passed over, leaving the flags `f`. -/
def Passes (S : Sys σ) (f : Flags) (xs : List UInt8) (f' : Flags) : Prop :=
  ∀ (T rest : List UInt8) (t : Tok σ), t.conf.Holds S (Source.memory T) (xs ++ rest) →
    t.flags = f → t.start ≤ t.conf.buffer.pos → ∃ t', Glides S T xs rest f' t t'

theorem Passes.nil (f : Flags) : Passes S f [] f :=
  fun _ _ t h hf hle => ⟨t, fun _ => rfl, h, hf, rfl, rfl, hle⟩

theorem Passes.append {f g g' : Flags} {xs ys : List UInt8} (h : Passes S f xs g)
    (h' : Passes S g ys g') : Passes S f (xs ++ ys) g' := by
  intro T rest t hholds hf hle
  rw [List.append_assoc] at hholds
  obtain ⟨u, hu⟩ := h T (ys ++ rest) t hholds hf hle
  obtain ⟨v, hv⟩ := h' T rest u hu.holds hu.flags hu.start_le
  refine ⟨v, ?_, hv.holds, hv.flags, hv.args.trans hu.args, hv.world.trans hu.world, hv.start_le⟩
  intro n
  rw [List.length_append, Nat.add_comm xs.length, ← Nat.add_assoc, hu.run, hv.run]

/-- A byte after which the loop goes on, or a `#`. -/
theorem Passes.byte {f g : Flags} {mv : Move} (hb : ∀ n, scanByte f n c = (g, mv))
    (hmv : mv = .go ∨ mv = .mark 0) : Passes S f [c] g := by
  intro T rest t h hf hle
  have hscan : scanByte t.flags t.args.length c = (g, mv) := by rw [hf, hb]
  obtain ⟨hc, hstep⟩ := tokenStep_memory h hscan
  have hholds := h.advance hc
  have hle' : t.start ≤ (t.conf.advance c).buffer.pos := Nat.le_succ_of_le hle
  rcases hmv with rfl | rfl
  · exact ⟨_, Loop.run_next hstep, hholds, rfl, rfl, rfl, hle'⟩
  · exact ⟨_, Loop.run_next hstep, hholds, rfl, rfl, rfl, Nat.le_succ _⟩

theorem passes_blanks {bs : List UInt8} (h : Blanks bs) : Passes S .start bs .start := by
  induction bs with
  | nil => exact Passes.nil _
  | cons c bs ih =>
    have hc : isBlank c = true := h c List.mem_cons_self
    have hbyte : Passes S .start [c] .start := by
      refine Passes.byte (fun n => ?_) (Or.inl rfl)
      simp [scanByte, scanText, betweenWords, hc, Flags.start]
    exact hbyte.append (ih fun d hd => h d (List.mem_cons_of_mem _ hd))

/-- The inside of a comment. -/
theorem passes_body {body : List UInt8} (h : Ch.lf ∉ body) :
    Passes S Mode.comment.flags body Mode.comment.flags := by
  induction body with
  | nil => exact Passes.nil _
  | cons c body ih =>
    have hc : c ≠ Ch.lf := fun he => h (he ▸ List.mem_cons_self)
    have hbyte : Passes S Mode.comment.flags [c] Mode.comment.flags := by
      refine Passes.byte (fun n => ?_) (Or.inl rfl)
      simp [scanByte, Mode.flags, hc]
    exact hbyte.append (ih fun hmem => h (List.mem_cons_of_mem _ hmem))

/-- Layout leads back to the flags of the entry. -/
theorem passes_layout {ins : List UInt8} (h : Layout ins) : Passes S .start ins .start := by
  cases h with
  | blanks h => exact passes_blanks h
  | comment h =>
    have hsharp : Passes S .start [Ch.sharp] Mode.comment.flags := by
      refine Passes.byte (fun n => ?_) (Or.inr rfl)
      simp +decide [scanByte, scanText, betweenWords, Flags.start, Mode.flags]
    have hlf : Passes S Mode.comment.flags [Ch.lf] .start := by
      refine Passes.byte (fun n => ?_) (Or.inl rfl)
      simp +decide [scanByte, scanText, betweenWords, Flags.start, Mode.flags]
    exact hsharp.append ((passes_body h).append hlf)

/-! ## 6. Successive calls

A call may end before the place, and then the insertion is left to the calls after it; it may end
behind it, and then the rest of the two texts is the same.  The induction on the calls goes through
the first kind up to the one that gets there. -/

/-- Two calls, one on the text with the insertion, end alike: before the place, with the place
still to come, or behind it. -/
theorem run_layout {ins post : List UInt8} (hins : Layout ins) :
    ∀ {pre : List UInt8} {t t' : Tok σ} {n n' : Nat},
      Twin S T T' t t' (pre ++ post) (pre ++ (ins ++ post)) →
      (rounds S pre.length t).flags = .start →
      (pre ++ post).length < n → (pre ++ (ins ++ post)).length < n' →
      ∃ r r', Loop.run (tokenStep S) n t = some r ∧ Loop.run (tokenStep S) n' t' = some r' ∧
        ((∃ rest, Echo S T T' r r' rest rest) ∨
          ∃ pre', Echo S T T' r r' (pre' ++ post) (pre' ++ (ins ++ post)) ∧
            (rounds S pre'.length (Tok.init S r.conf r.world)).flags = .start)
  | [], t, t', n, n', h, hfree, hn, hn' => by
    have hflags : t.flags = .start := hfree
    obtain ⟨u, hu⟩ := passes_layout hins T' post t' h.holds' (h.flags.trans hflags) h.start_le'
    have htwin : Twin S T T' t u post post :=
      ⟨h.holds, hu.holds, hu.flags.trans hflags.symm, hu.args.trans h.args,
        hu.world.trans h.world, h.start_le, hu.start_le, fun hl => by
          rw [hflags] at hl
          cases hl⟩
    simp only [List.nil_append, List.length_append] at hn hn'
    obtain ⟨m, rfl⟩ : ∃ m, n' = m + ins.length := ⟨n' - ins.length, by omega⟩
    have hm : post.length < m := by omega
    obtain ⟨r, r', rest, hr, hr', hecho⟩ := htwin.run hn hm
    exact ⟨r, r', hr, (hu.run m).trans hr', Or.inl ⟨rest, hecho⟩⟩
  | c :: pre, t, t', n + 1, n' + 1, h, hfree, hn, hn' => by
    have hstep := h.step
    simp only [List.cons_append, List.length_cons] at hn hn' hfree
    generalize hs : tokenStep S t = a at hstep
    generalize hs' : tokenStep S t' = b at hstep
    unfold rounds at hfree
    rw [hs] at hfree
    cases hstep with
    | next hnext =>
      rw [Loop.run_next hs, Loop.run_next hs']
      exact run_layout hins hnext hfree (by omega) (by omega)
    | @done r r' hecho =>
      exact ⟨r, r', Loop.run_done hs n, Loop.run_done hs' n', Or.inr ⟨pre, hecho, hfree⟩⟩

/-- A whole call is a run of the loop that is long enough. -/
theorem readToken_run {conf : ConfFile} (h : conf.Holds S (Source.memory T) xs) {w : σ}
    {r : TokenResult σ} (hr : Loop.run (tokenStep S) (xs.length + 1) (Tok.init S conf w) = some r) :
    readToken S conf w = r := by
  rw [h.length_eq] at hr
  unfold readToken
  rw [hr]

/-- Calls on two configurations with the same text to come. -/
theorem calls_echo : ∀ (n : Nat) {conf conf' : ConfFile} {xs : List UInt8} (w : σ),
    conf.Holds S (Source.memory T) xs → conf'.Holds S (Source.memory T') xs →
    (calls S n conf' w).map seen = (calls S n conf w).map seen := by
  intro n
  induction n with
  | zero =>
    intro conf conf' xs w _ _
    rfl
  | succ n ih =>
    intro conf conf' xs w h h'
    obtain ⟨r, r', rest, hr, hr', hecho⟩ := (Twin.init h h' w).run (Nat.lt_succ_self _)
      (Nat.lt_succ_self _)
    have hcall := readToken_run h hr
    have hcall' := readToken_run h' hr'
    have htail := ih r.world hecho.holds hecho.holds'
    simp only [calls, List.map_cons, hcall, hcall', hecho.world, htail, List.cons.injEq, and_true]
    simp only [seen, TokenResult.code, hecho.rc, hecho.args]

/-- Layout does not change what the calls return.  The induction is on the calls. -/
theorem calls_layout {ins post : List UInt8} (hins : Layout ins) : ∀ (n : Nat)
    {conf conf' : ConfFile} {pre : List UInt8} (w : σ),
    conf.Holds S (Source.memory T) (pre ++ post) →
    conf'.Holds S (Source.memory T') (pre ++ (ins ++ post)) →
    (rounds S pre.length (Tok.init S conf w)).flags = .start →
    (calls S n conf' w).map seen = (calls S n conf w).map seen := by
  intro n
  induction n with
  | zero =>
    intro conf conf' pre w _ _ _
    rfl
  | succ n ih =>
    intro conf conf' pre w h h' hfree
    obtain ⟨r, r', hr, hr', hplace⟩ := run_layout hins (Twin.init h h' w) hfree
      (Nat.lt_succ_self _) (Nat.lt_succ_self _)
    have hcall := readToken_run h hr
    have hcall' := readToken_run h' hr'
    have hhead : r'.rc = r.rc ∧ r'.args = r.args ∧ r'.world = r.world := by
      rcases hplace with ⟨rest, hecho⟩ | ⟨pre', hecho, -⟩
      · exact ⟨hecho.rc, hecho.args, hecho.world⟩
      · exact ⟨hecho.rc, hecho.args, hecho.world⟩
    have htail : (calls S n r'.conf r.world).map seen = (calls S n r.conf r.world).map seen := by
      rcases hplace with ⟨rest, hecho⟩ | ⟨pre', hecho, hfree'⟩
      · exact calls_echo n r.world hecho.holds hecho.holds'
      · exact ih r.world hecho.holds hecho.holds' hfree'
    simp only [calls, List.map_cons, hcall, hcall', hhead.2.2, htail, List.cons.injEq, and_true]
    simp only [seen, TokenResult.code, hhead.1, hhead.2.1]

/-! ## 7. The places of the text

`Free` looks at the flags of a run, and so depends on the allocations: where one fails the call
ends, and the next begins in the middle of things.  Where none fails it is a matter of the text
alone. -/

/-- Where allocations succeed, the rounds of the loop follow the lexer over the text. -/
theorem rounds_sim (hS : S.Allocates) : ∀ {xs rest whole : List UInt8} {lines : Nat} {t : Tok σ}
    {s : Lexer}, Sim S (Source.memory T) whole lines t s (xs ++ rest) →
    ∃ whole' lines', Sim S (Source.memory T) whole' lines' (rounds S xs.length t)
      (xs.foldl Lexer.scanOn s) rest := by
  intro xs
  induction xs with
  | nil =>
    intro rest whole lines t s h
    exact ⟨whole, lines, h⟩
  | cons c xs ih =>
    intro rest whole lines t s h
    have hlimit : (Source.memory T).limit ≠ some s.since := by simp [Source.memory]
    obtain ⟨t', ht', h', hc⟩ := h.refill_next hlimit
    have hlock := h'.scan_step hS hc hlimit
    have hlex : s.step (Source.memory T).limit c = s.read c := s.step_none c
    rw [hlex] at hlock
    have hstep : tokenStep S t = scan S t' := by simp only [tokenStep, ht']
    rw [List.length_cons, List.foldl_cons]
    unfold rounds
    rw [hstep, Lexer.scanOn]
    generalize scan S t' = a at hlock
    generalize hread : s.read c = b at hlock
    cases hlock with
    | next hsim => exact ih hsim
    | @done r o hsame =>
      obtain ⟨hholds, -⟩ := hsame.conf (Lexer.read_ne_tooLong hread)
      exact ih (Sim.init hholds r.world)

/-- Where allocations succeed, the flags are those of the entry just between words of the text. -/
theorem free_iff (hS : S.Allocates) (w : σ) (pre post : List UInt8) :
    Free S w pre post ↔ BetweenWords pre := by
  obtain ⟨_, _, hsim⟩ := rounds_sim hS (Sim.init (ConfFile.param_holds S (pre ++ post)) w)
  unfold Free BetweenWords
  rw [hsim.flags, ← standOn]
  cases (standOn pre).mode <;> simp [Mode.flags, Flags.start]

end

/-- **Layout carries no meaning.**  At a place between words of the text, and whatever the
allocations do at a place where the scanner has the flags of the entry, any blanks and any comment
leave the codes and the words of successive calls as they are. -/
theorem layout_unread {σ : Type} {S : Sys σ} {w : σ} {pre post ins : List UInt8}
    (hins : Layout ins) (hplace : S.Allocates ∧ BetweenWords pre ∨ Free S w pre post) (n : Nat) :
    (calls S n (.param (pre ++ (ins ++ post))) w).map seen
      = (calls S n (.param (pre ++ post)) w).map seen := by
  have hfree : Free S w pre post := by
    rcases hplace with ⟨hS, hbetween⟩ | hfree
    · exact (free_iff hS w pre post).mpr hbetween
    · exact hfree
  exact calls_layout hins n w (ConfFile.param_holds S _) (ConfFile.param_holds S _) hfree

/-- The statement for a comment with a quote and a brace in it, between the words of `a b;`. -/
theorem layout_unread_sample :
    (calls (Sys.plain []) 2 (.param ([97, 32] ++ ([35, 34, 123, 10] ++ [98, 59]))) ()).map seen
      = (calls (Sys.plain []) 2 (.param ([97, 32] ++ [98, 59])) ()).map seen :=
  layout_unread (@Layout.comment [34, 123] (by decide))
    (Or.inl ⟨Sys.plain_allocates [], by unfold BetweenWords; decide⟩) 2

end Capwap
