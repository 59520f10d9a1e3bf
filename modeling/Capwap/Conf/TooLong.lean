/-
# When a parse reports a parameter that is too long

`cw_conf_parse` calls the tokenizer until it returns, and where a handler parses a block or another
file, so does the call it makes.  `parseCalls` lists these calls, as `confParse` goes: it is the
same recursion, with the states in which `cw_conf_read_token` is entered in place of the result.
Where the parse fails because of a token, a call of the list has failed so (`parse_token`).

A call reports "too long parameter" when the report is due among the bytes it reads
(`readToken_tooLong_iff`).  When every word is short, such a place is never inside a word: it is in
a comment, or among the blanks after a comment, a word or the entry of the call.  So a parse meets
no report if and only if the gaps ahead of each of its calls are short (`no_tooLong_iff`).

The induction is on the parse, with the handlers of its rounds inside.  What it carries along is
that every call starts at a place of its file where the lexer starts afresh (`AtCall`); only a
report leads away from such places, and then both sides of the equivalence are false.
-/
import Capwap.Conf.Core
import Capwap.Conf.Heads
import Capwap.Conf.Layout
import Capwap.Conf.Length
import Capwap.Conf.Simulate
import Mathlib.Data.List.Induction

namespace Capwap

/-! ## 1. The calls of a parse

The list grows in the order of the code: first the call of the round, then those of the parses its
handler asks for, then the rounds that follow. -/

/-- A call of `cw_conf_read_token`: the file or the text it reads, and the world it is made in. -/
structure TokenCall (σ : Type) where
  conf : ConfFile
  world : σ

section
variable {σ : Type}

/-- The result of a call. -/
def TokenCall.result (S : Sys σ) (c : TokenCall σ) : TokenResult σ := readToken S c.conf c.world

/-- The calls of the parses that a handler asks for; `made` gives those of one parse. -/
def Act.calls (parse : Parser σ) (made : Option (List UInt8) → Cf σ → List (TokenCall σ)) :
    Act σ → Cf σ → List (TokenCall σ)
  | .ret _ _ _, _ => []
  | .parse filename view w k, cf =>
    let cf := { cf with view := view, world := w }
    let r := parse filename cf
    made filename cf ++ (k (Rv.of r.1) r.2.view r.2.args r.2.world).calls parse made r.2

/-- The calls made by the handler of a round. -/
def Head.calls (parse : Parser σ) (made : Option (List UInt8) → Cf σ → List (TokenCall σ)) :
    Head σ → List (TokenCall σ)
  | .done _ => []
  | .call a cf _ => a.calls parse made cf

/-- The calls of so many rounds of the loop. -/
def loopCalls (S : Sys σ) (T : Table σ) (parse : Parser σ)
    (made : Option (List UInt8) → Cf σ → List (TokenCall σ)) (type : ParseType) :
    Nat → Cf σ → List (TokenCall σ)
  | 0, _ => []
  | n + 1, cf =>
    match cf.conf with
    | none => []
    | some conf =>
      ⟨conf, cf.world⟩ :: ((roundHead S T type conf cf).calls parse made ++
        match parseStep S T parse type cf with
        | .next cf => loopCalls S T parse made type n cf
        | .done _ => [])

/-- The calls of `cw_conf_read_token` in a run of `cw_conf_parse`, in order. -/
def parseCalls (S : Sys σ) (T : Table σ) : Nat → Option (List UInt8) → Cf σ → List (TokenCall σ)
  | 0, _, _ => []
  | n + 1, none, cf =>
    match cf.conf with
    | none => []
    | some conf =>
      loopCalls S T (confParse S T n) (parseCalls S T n)
        (if conf.file.fd ≠ invalidFile then .block else .param) (conf.unread + 1) cf
  | n + 1, some filename, cf =>
    let fd := S.openFile filename cf.world
    if fd.1 = invalidFile then []
    else
      let info := S.fdInfo fd.1 fd.2
      let opened := ConfFile.opened fd.1 info.1.2
      match S.alloc confBuffer info.2 with
      | (none, _) => []
      | (some _, w) =>
        loopCalls S T (confParse S T n) (parseCalls S T n) .file (opened.unread + 1)
          { cf with conf := some opened, world := w }

/-! ## 2. What a parse reports, a call has reported

The list is made beside the parser and not by it, so it might leave calls out.  Where a parse fails
because of a token, one of the calls that are listed has failed with the same error: nothing else in
a round makes such an error, and what a handler returns for a parse of its own is a code or a
text. -/

section
variable {S : Sys σ} {T : Table σ} {parse : Parser σ}
variable {made : Option (List UInt8) → Cf σ → List (TokenCall σ)}

theorem confHandler_ne_token {rc : Rc} {cf : Cf σ} {e : TokenError} :
    (confHandler S T parse rc cf).1 ≠ .error (.token e) := by
  unfold confHandler
  split
  · simp
  · split
    · simp
    · simp
    · split_ifs
      · simp
      · simp
      · split <;> simp
      · simp

/-- What is done about a token ends a parse with errors of its own. -/
theorem dispatch_ne_token {rc : Rc} {cf cf' : Cf σ} {e : TokenError} :
    dispatch S T parse rc cf ≠ .done (.error (.token e), cf') := by
  unfold dispatch
  split_ifs
  · simp
  · split <;> simp
  · have hne : (confHandler S T parse rc cf).1 ≠ .error (.token e) := confHandler_ne_token
    split
    · rename_i e' cf₁ hres
      rw [hres] at hne
      intro h
      cases h
      exact hne rfl
    · simp

/-- A round that ends with an error of the tokenizer is one whose call has failed so. -/
theorem parseStep_token {type : ParseType} {conf : ConfFile} {cf cf' : Cf σ} {e : TokenError}
    (hconf : cf.conf = some conf)
    (h : parseStep S T parse type cf = .done (.error (.token e), cf')) :
    (readToken S conf cf.world).rc = .error e := by
  rw [parseStep_eq S T parse type hconf, roundHead] at h
  unfold tokenHead at h
  split at h
  · rename_i e' hrc
    cases h
    exact hrc
  · simp only [Head.resume] at h
    split_ifs at h <;> cases h
  · simp only [Head.resume] at h
    split_ifs at h <;> cases h
  · split_ifs at h
    · cases h
    · exact absurd ((dispatchHead_resume _ _).symm.trans h) dispatch_ne_token
  · exact absurd ((dispatchHead_resume _ _).symm.trans h) dispatch_ne_token

/-- The loop fails with an error of the tokenizer only if one of its own calls has.  The induction
is on the rounds. -/
theorem loop_token {type : ParseType} {e : TokenError} : ∀ (n : Nat) {cf cf' : Cf σ},
    Loop.run (parseStep S T parse type) n cf = some (.error (.token e), cf') →
      ∃ c ∈ loopCalls S T parse made type n cf, (c.result S).rc = .error e
  | 0, _, _, h => by cases h
  | n + 1, cf, cf', h => by
    cases hconf : cf.conf with
    | none =>
      have hdone : parseStep S T parse type cf = .done (.error .noFile, cf) := by
        unfold parseStep
        rw [hconf]
      rw [Loop.run_done hdone] at h
      cases h
    | some conf =>
      simp only [loopCalls, hconf]
      cases hstep : parseStep S T parse type cf with
      | done r =>
        rw [Loop.run_done hstep] at h
        obtain rfl := Option.some.inj h
        exact ⟨_, List.mem_cons_self, parseStep_token hconf hstep⟩
      | next cf₁ =>
        rw [Loop.run_next hstep] at h
        obtain ⟨c, hc, hrc⟩ := loop_token n h
        exact ⟨c, List.mem_cons_of_mem _ (List.mem_append_right _ hc), hrc⟩

/-- The calls that are listed account for the parse: where it fails because of a token, a call of
the list has failed so. -/
theorem parse_token {n : Nat} {filename : Option (List UInt8)} {cf : Cf σ} {e : TokenError}
    (h : (confParse S T n filename cf).1 = .error (.token e)) :
    ∃ c ∈ parseCalls S T n filename cf, (c.result S).rc = .error e := by
  have hloop : ∀ {m : Nat} {type : ParseType} {cf₀ : Cf σ} {conf : ConfFile},
      cf₀.conf = some conf → (parseLoop S T (confParse S T m) type cf₀).1 = .error (.token e) →
      ∃ c ∈ loopCalls S T (confParse S T m) (parseCalls S T m) type (conf.unread + 1) cf₀,
        (c.result S).rc = .error e := by
    intro m type cf₀ conf hconf hres
    unfold parseLoop at hres
    rw [hconf, Option.map_some, Option.getD_some] at hres
    split at hres
    · rename_i r hrun
      obtain ⟨res, cf'⟩ := r
      obtain rfl : res = .error (.token e) := hres
      exact loop_token _ hrun
    · cases hres
  cases n with
  | zero => cases h
  | succ n =>
    cases filename with
    | none =>
      simp only [confParse, parseCalls] at h ⊢
      cases hconf : cf.conf with
      | none => rw [hconf] at h; cases h
      | some conf =>
        rw [hconf] at h
        exact hloop hconf h
    | some filename =>
      simp only [confParse, parseCalls] at h ⊢
      by_cases hopen : (S.openFile filename cf.world).1 = invalidFile
      · rw [if_pos hopen] at h
        cases h
      · rw [if_neg hopen] at h ⊢
        cases halloc : S.alloc confBuffer (S.fdInfo (S.openFile filename cf.world).1
            (S.openFile filename cf.world).2).2 with
        | mk buf w =>
          rw [halloc] at h
          cases buf with
          | none =>
            simp only [closeConf] at h
            split at h <;> cases h
          | some buf =>
            simp only [closeConf] at h
            split at h
            · exact hloop rfl h
            · cases h
end

/-! ## 3. Files with short words

A descriptor stands for the text of its file.  Where a call stands in a file, what is ahead of it
is in the buffer and in the part of the file that is not read yet. -/

/-- Whatever is opened, `fstat` tells its length and reads succeed; `files fd` is the text behind
the descriptor `fd`. -/
structure Sys.ServesFiles (S : Sys σ) (files : Int → List UInt8) : Prop where
  fdInfo : ∀ fd w, (S.fdInfo fd w).1.2 = (files fd).length
  serves : ∀ fd, S.Serves fd (files fd)

/-- The bytes ahead of a call. -/
def TokenCall.ahead (files : Int → List UInt8) (c : TokenCall σ) : List UInt8 :=
  c.conf.buffer.bytes.drop c.conf.buffer.pos ++ (files c.conf.file.fd).drop c.conf.file.offset

end

/-- Every word's raw text is shorter than `CW_CONF_BUFFER - 2` bytes. -/
def WordsShort (text : List UInt8) : Prop :=
  ∀ pre post q var esc, text = pre ++ post → (standOn pre).mode = .word q var esc →
    (standOn pre).since < confBuffer - 2

/-- Wherever a call on these bytes stands between words, fewer than `CW_CONF_BUFFER` bytes have gone
by since the last item began: its comments are short, and so are the blanks after a comment, after
a word together with that word, and after the entry of the call. -/
def GapsShort (rest : List UInt8) : Prop :=
  ∀ pre c post s, rest = pre ++ c :: post → Loop.advance (Lexer.step none) .start pre = some s →
    (∀ q var esc, s.mode ≠ .word q var esc) → s.since < confBuffer

/-! ## 4. One call

A call reports a parameter that is too long just when the report is due among the bytes it reads;
and if the words are short, this is a matter of the gaps. -/

/-- Among the bytes a call reads, `CW_CONF_BUFFER` have gone by since an item began. -/
def DueIn (rest : List UInt8) : Prop :=
  ∃ pre c post s, rest = pre ++ c :: post ∧
    Loop.advance (Lexer.step none) .start pre = some s ∧ s.since = confBuffer

/-- A byte of a call counts at most one. -/
theorem Lexer.step_none_since {s s' : Lexer} {c : UInt8} (h : s.step none c = .next s') :
    s'.since ≤ s.since + 1 := by
  rw [Lexer.step_none] at h
  exact (Lexer.read_next h).1

/-- Up to a place where the report is not due, `since` has not reached the limit: it starts at 0
and grows by a byte at a time. -/
theorem since_lt_of_not_due {rest : List UInt8} (h : ¬ DueIn rest) {pre : List UInt8} :
    ∀ {c : UInt8} {post : List UInt8} {s : Lexer}, rest = pre ++ c :: post →
      Loop.advance (Lexer.step none) .start pre = some s → s.since < confBuffer := by
  induction pre using List.reverseRecOn with
  | nil =>
    intro c post s _ hs
    obtain rfl : Lexer.start = s := Option.some.inj hs
    decide
  | append_singleton pre d ih =>
    intro c post s heq hs
    have hne : s.since ≠ confBuffer := fun he => h ⟨_, c, post, s, heq, hs, he⟩
    obtain ⟨t, ht, hd⟩ := Loop.advance_split hs
    have hlt := ih (c := d) (by simpa using heq) ht
    cases hstep : t.step none d with
    | done o => simp [Loop.advance_done hstep] at hd
    | next t' =>
      rw [Loop.advance_next hstep] at hd
      obtain rfl : t' = s := Option.some.inj hd
      have hone := Lexer.step_none_since hstep
      omega

section
variable {σ : Type} {S : Sys σ} {fd : Int} {content rest : List UInt8} {conf : ConfFile}

/-- When a call on a file reports a parameter that is too long. -/
theorem readToken_tooLong_iff (hS : S.Allocates)
    (h : conf.Holds S (Source.file fd content) rest) (w : σ) :
    (readToken S conf w).TooLong ↔ DueIn rest := by
  have hsame := readToken_refines hS h w
  have hlex : lex (Source.file fd content).limit rest = lex (some confBuffer) rest := rfl
  rw [hlex] at hsame
  rw [hsame.rc.tooLong_iff, lex]
  rcases Loop.feed_cases (Lexer.step (some confBuffer)) Lexer.eof rest .start with
    ⟨s, ha, hf⟩ | ⟨pre, c, post, s, o, rfl, ha, hd, hf⟩
  · -- the call takes the whole rest, under the limit throughout
    rw [hf]
    refine iff_of_false s.eof_ne ?_
    rintro ⟨p, d, q, t, heq, ht, hsince⟩
    exact not_late_of_advance ha p d q heq t (standFrom_of_advance ht) hsince
  · rw [hf]
    by_cases hlimit : s.since = confBuffer
    · -- the report is due, and made
      rw [Lexer.step_at (by rw [hlimit])] at hd
      cases hd
      exact iff_of_true rfl ⟨pre, c, post, s, rfl, advance_limit ha, hlimit⟩
    · rw [Lexer.step_off fun he => hlimit (Option.some.inj he).symm] at hd
      refine iff_of_false (Lexer.read_ne_tooLong hd) ?_
      rintro ⟨p, d, q, t, heq, ht, hsince⟩
      have hnone : s.step none c = .done o := (s.step_none c).trans hd
      rcases List.append_eq_append_iff.mp heq with ⟨as, rfl, hr⟩ | ⟨bs, rfl, hr⟩
      · -- the place is not behind the end of the call
        obtain ⟨u, hu, hrest⟩ := Loop.advance_split ht
        obtain rfl : s = u := Option.some.inj ((advance_limit ha).symm.trans hu)
        cases as with
        | nil =>
          obtain rfl : s = t := Option.some.inj hrest
          exact hlimit hsince
        | cons a as =>
          obtain ⟨rfl, -⟩ := List.cons.inj hr
          rw [Loop.advance_done hnone] at hrest
          cases hrest
      · cases bs with
        | nil =>
          rw [List.append_nil] at ha
          obtain rfl : s = t := Option.some.inj ((advance_limit ha).symm.trans ht)
          exact hlimit hsince
        | cons b bs => exact not_late_of_advance ha p b bs rfl t (standFrom_of_advance ht) hsince

/-! ## 5. The places where calls start

A call starts at the end of its file, or at a place where the lexer over the calls of the file
starts afresh.  So the words it reads are words of the file. -/

/-- A call on `conf` starts at such a place of the file. -/
def AtCall (S : Sys σ) (files : Int → List UInt8) (conf : ConfFile) : Prop :=
  ∃ fd pre rest, conf.Holds S (Source.file fd (files fd)) rest ∧ files fd = pre ++ rest ∧
    (rest = [] ∨ standOn pre = .start)

variable {files : Int → List UInt8}

/-- Inside a call the lexer over a text is where the lexer of the call is. -/
theorem foldl_scanOn_of_advance : ∀ {xs : List UInt8} {s s' : Lexer},
    Loop.advance (Lexer.step none) s xs = some s' → xs.foldl Lexer.scanOn s = s' := by
  intro xs
  induction xs with
  | nil =>
    intro s s' h
    exact Option.some.inj h
  | cons c xs ih =>
    intro s s' h
    cases hs : s.step none c with
    | done o => simp [Loop.advance_done hs] at h
    | next t =>
      rw [Loop.advance_next hs] at h
      rw [Lexer.step_none] at hs
      rw [List.foldl_cons, Lexer.scanOn, hs]
      exact ih h

theorem standOn_append (xs ys : List UInt8) :
    standOn (xs ++ ys) = ys.foldl Lexer.scanOn (standOn xs) := List.foldl_append

/-- The beginning of a file. -/
theorem AtCall.opened (hfiles : S.ServesFiles files) (fd : Int) :
    AtCall S files (.opened fd (files fd).length) :=
  ⟨fd, [], files fd, ConfFile.opened_holds (hfiles.serves fd), rfl, Or.inr rfl⟩

/-- What is ahead of a call that starts there. -/
theorem ahead_eq (h : conf.Holds S (Source.file fd (files fd)) rest) (w : σ) :
    TokenCall.ahead files ⟨conf, w⟩ = rest := by
  have hfd : conf.file.fd = fd := h.fd_eq
  unfold TokenCall.ahead
  rw [hfd]
  exact h.rest_eq.symm

/-- When the words of the file are short, the report is not due just when the gaps are short. -/
theorem not_dueIn_iff (hwords : WordsShort (files fd)) {pre : List UInt8}
    (hfile : files fd = pre ++ rest) (hplace : rest = [] ∨ standOn pre = .start) :
    ¬ DueIn rest ↔ GapsShort rest := by
  constructor
  · intro h p c post s heq hs _
    exact since_lt_of_not_due h heq hs
  · rintro h ⟨p, c, post, s, rfl, hs, hsince⟩
    have hstart : standOn pre = .start := hplace.resolve_left (by simp)
    have hstand : standOn (pre ++ p) = s := by
      rw [standOn_append, hstart]
      exact foldl_scanOn_of_advance hs
    by_cases hm : ∃ q var esc, s.mode = .word q var esc
    · obtain ⟨q, var, esc, hm⟩ := hm
      have hlt := hwords (pre ++ p) (c :: post) q var esc (by rw [hfile, List.append_assoc])
        (hstand ▸ hm)
      rw [hstand] at hlt
      omega
    · have hlt := h p c post s rfl hs fun q var esc he => hm ⟨q, var, esc, he⟩
      omega

/-- A call that makes no report leaves the next one at such a place. -/
theorem AtCall.next (hS : S.Allocates) (h : AtCall S files conf) (w : σ)
    (hquiet : ¬ (readToken S conf w).TooLong) : AtCall S files (readToken S conf w).conf := by
  obtain ⟨fd, pre, rest, hholds, hfile, hplace⟩ := h
  have hsame := readToken_refines hS hholds w
  have hlex : lex (Source.file fd (files fd)).limit rest = lex (some confBuffer) rest := rfl
  rw [hlex] at hsame
  have hne : (lex (some confBuffer) rest).1.rc ≠ .error .tooLong :=
    fun he => hquiet (hsame.rc.tooLong_iff.mpr he)
  have hleft := (hsame.conf hne).1
  rcases Loop.feed_cases (Lexer.step (some confBuffer)) Lexer.eof rest .start with
    ⟨s, -, hf⟩ | ⟨p, c, post, s, o, rfl, ha, hd, hf⟩
  · rw [lex, hf] at hleft
    exact ⟨fd, files fd, [], hleft, (List.append_nil _).symm, Or.inl rfl⟩
  · rw [lex, hf] at hleft hne
    have hlimit : s.since ≠ confBuffer := by
      intro hs
      rw [Lexer.step_at (by rw [hs])] at hd
      cases hd
      exact hne rfl
    rw [Lexer.step_off fun he => hlimit (Option.some.inj he).symm] at hd
    have hstart : standOn pre = .start := hplace.resolve_left (by simp)
    refine ⟨fd, pre ++ p ++ [c], post, hleft, by rw [hfile]; simp, Or.inr ?_⟩
    rw [standOn_append, standOn_append, hstart, foldl_scanOn_of_advance (advance_limit ha),
      List.foldl_cons, List.foldl_nil, Lexer.scanOn, hd]

/-! ## 6. The calls of a run

Up to the first report every call starts at such a place, so for each of them the two sides agree;
and the first report settles both. -/

/-- The file of `cf` is at such a place. -/
def Cf.AtCall (S : Sys σ) (files : Int → List UInt8) (cf : Cf σ) : Prop :=
  ∃ conf, cf.conf = some conf ∧ Capwap.AtCall S files conf

/-- A call without a report, and with short gaps ahead. -/
def TokenCall.Quiet (S : Sys σ) (files : Int → List UInt8) (c : TokenCall σ) : Prop :=
  ¬ (c.result S).TooLong ∧ GapsShort (c.ahead files)

/-- A call that reports, where a gap ahead is too long. -/
def TokenCall.Loud (S : Sys σ) (files : Int → List UInt8) (c : TokenCall σ) : Prop :=
  AtCall S files c.conf ∧ (c.result S).TooLong ∧ ¬ GapsShort (c.ahead files)

/-- Some call reports, or none does and the file is at the start of a call. -/
def Resolved (S : Sys σ) (files : Int → List UInt8) (calls : List (TokenCall σ)) (cf : Cf σ) :
    Prop :=
  (∃ c ∈ calls, c.Loud S files) ∨ (∀ c ∈ calls, c.Quiet S files) ∧ cf.AtCall S files

theorem Resolved.nil {cf : Cf σ} (h : cf.AtCall S files) : Resolved S files [] cf :=
  Or.inr ⟨by simp, h⟩

/-- The calls of one part of a run, and then those of the next. -/
theorem Resolved.append {calls calls' : List (TokenCall σ)} {cf cf' : Cf σ}
    (h : Resolved S files calls cf) (hrest : cf.AtCall S files → Resolved S files calls' cf') :
    Resolved S files (calls ++ calls') cf' := by
  rcases h with ⟨c, hc, hloud⟩ | ⟨hquiet, hat⟩
  · exact Or.inl ⟨c, List.mem_append_left _ hc, hloud⟩
  · rcases hrest hat with ⟨c, hc, hloud⟩ | ⟨hquiet', hat'⟩
    · exact Or.inl ⟨c, List.mem_append_right _ hc, hloud⟩
    · refine Or.inr ⟨fun c hc => ?_, hat'⟩
      rcases List.mem_append.mp hc with hc | hc
      · exact hquiet c hc
      · exact hquiet' c hc

/-- One call. -/
theorem resolved_call (hS : S.Allocates) (hwords : ∀ fd, WordsShort (files fd)) (cf : Cf σ)
    (h : AtCall S files conf) :
    Resolved S files [⟨conf, cf.world⟩] (cf.took (readToken S conf cf.world)) := by
  have hat := h
  obtain ⟨fd, pre, rest, hholds, hfile, hplace⟩ := h
  have htoo := readToken_tooLong_iff hS hholds cf.world
  have hgaps := not_dueIn_iff (hwords fd) hfile hplace
  have hahead := ahead_eq hholds cf.world
  by_cases hdue : DueIn rest
  · refine Or.inl ⟨_, List.mem_singleton_self _, hat, htoo.mpr hdue, ?_⟩
    rw [hahead, ← hgaps]
    exact not_not.mpr hdue
  · have hquiet : ¬ (readToken S conf cf.world).TooLong := fun ht => hdue (htoo.mp ht)
    refine Or.inr ⟨fun c hc => ?_, _, rfl, hat.next hS cf.world hquiet⟩
    obtain rfl := List.mem_singleton.mp hc
    exact ⟨hquiet, by rw [hahead]; exact hgaps.mp hdue⟩

variable {T : Table σ} {parse : Parser σ}
variable {made : Option (List UInt8) → Cf σ → List (TokenCall σ)}

/-- The calls of a handler.  The induction is on the handler. -/
theorem Act.resolved (hparse : ∀ filename cf, cf.AtCall S files →
      Resolved S files (made filename cf) (parse filename cf).2) :
    ∀ (a : Act σ) {cf : Cf σ}, cf.AtCall S files →
      Resolved S files (a.calls parse made cf) (a.run parse cf).2
  | .ret _ _ _, _, h => Resolved.nil h
  | .parse filename view w k, cf, h => by
    have hfirst := hparse filename { cf with view := view, world := w } h
    exact hfirst.append fun h' => Act.resolved hparse (k _ _ _ _) h'

/-- The calls of some rounds.  The induction is on their number. -/
theorem loop_resolved (hS : S.Allocates) (hwords : ∀ fd, WordsShort (files fd))
    (hparse : ∀ filename cf, cf.AtCall S files →
      Resolved S files (made filename cf) (parse filename cf).2) (type : ParseType) {cf₀ : Cf σ}
    (h₀ : cf₀.AtCall S files) : ∀ (n : Nat) {cf : Cf σ}, cf.AtCall S files →
      Resolved S files (loopCalls S T parse made type n cf)
        (match Loop.run (parseStep S T parse type) n cf with
          | some r => r.2
          | none => cf₀)
  | 0, _, _ => Resolved.nil h₀
  | n + 1, cf, ⟨conf, hconf, hat⟩ => by
    have hcall := resolved_call hS hwords cf hat
    have hcomes := tokenHead_comes S T type (readToken S conf cf.world).rc
      (cf.took (readToken S conf cf.world))
    have hstep := parseStep_eq S T parse type hconf
    rw [← roundHead] at hcomes
    simp only [loopCalls, hconf]
    refine hcall.append fun h => ?_
    generalize roundHead S T type conf cf = head at hcomes hstep
    cases hcomes with
    | done res _ =>
      have hdone : parseStep S T parse type cf = .done (res, cf.took _) := hstep
      rw [hdone, Loop.run_done hdone]
      exact Resolved.nil h
    | @call last a back _ _ hcalled =>
      refine (Act.resolved hparse a h).append fun h' => ?_
      have hresume : parseStep S T parse type cf
          = back (a.run parse (cf.took _)).1 (a.run parse (cf.took _)).2 := hstep
      rcases hcalled.back (a.run parse (cf.took (readToken S conf cf.world))).1
        (a.run parse (cf.took (readToken S conf cf.world))).2 with ⟨-, hback⟩ | ⟨-, e, hback⟩
      · have hnext := hresume.trans hback
        rw [hnext, Loop.run_next hnext]
        exact loop_resolved hS hwords hparse type h₀ n h'
      · have hdone := hresume.trans hback
        rw [hdone, Loop.run_done hdone]
        exact Resolved.nil h'

/-- The calls of a loop that starts at such a place. -/
theorem parseLoop_resolved (hS : S.Allocates) (hwords : ∀ fd, WordsShort (files fd))
    (hparse : ∀ filename cf, cf.AtCall S files →
      Resolved S files (made filename cf) (parse filename cf).2) (type : ParseType) (cf : Cf σ)
    (hconf : cf.conf = some conf) (hat : AtCall S files conf) :
    Resolved S files (loopCalls S T parse made type (conf.unread + 1) cf)
      (parseLoop S T parse type cf).2 := by
  have hloop := loop_resolved (T := T) hS hwords hparse type ⟨conf, hconf, hat⟩ (conf.unread + 1)
    ⟨conf, hconf, hat⟩
  unfold parseLoop
  rw [hconf, Option.map_some, Option.getD_some]
  cases hrun : Loop.run (parseStep S T parse type) (conf.unread + 1) cf with
  | none =>
    rw [hrun] at hloop
    exact hloop
  | some r =>
    rw [hrun] at hloop
    exact hloop

/-- Either some call of a list reports, or none does. -/
def Decided (S : Sys σ) (files : Int → List UInt8) (calls : List (TokenCall σ)) : Prop :=
  (∃ c ∈ calls, c.Loud S files) ∨ ∀ c ∈ calls, c.Quiet S files

/-- The calls of a run that opens its file, whatever `cf` was on. -/
theorem named_decided (hS : S.Allocates) (hfiles : S.ServesFiles files)
    (hwords : ∀ fd, WordsShort (files fd)) {n : Nat}
    (ih : ∀ filename cf, cf.AtCall S files →
      Resolved S files (parseCalls S T n filename cf) (confParse S T n filename cf).2)
    (filename : List UInt8) (cf : Cf σ) :
    Decided S files (parseCalls S T (n + 1) (some filename) cf) ∧
      (confParse S T (n + 1) (some filename) cf).2.conf = cf.conf := by
  simp only [parseCalls, confParse]
  by_cases hopen : (S.openFile filename cf.world).1 = invalidFile
  · rw [if_pos hopen, if_pos hopen]
    exact ⟨Or.inr (by simp), rfl⟩
  · rw [if_neg hopen, if_neg hopen, hfiles.fdInfo]
    cases S.alloc confBuffer (S.fdInfo (S.openFile filename cf.world).1
        (S.openFile filename cf.world).2).2 with
    | mk buf w =>
      cases buf with
      | none => exact ⟨Or.inr (by simp), closeConf_conf S _ _ _ _⟩
      | some buf =>
        refine ⟨?_, closeConf_conf S _ _ _ _⟩
        have hat := AtCall.opened hfiles (S.openFile filename cf.world).1
        have hloop := parseLoop_resolved (T := T) hS hwords ih .file
          { cf with conf := some (.opened (S.openFile filename cf.world).1 _), world := w } rfl hat
        exact hloop.imp id fun h => h.1

/-- The calls of a run.  The induction is on the depth. -/
theorem parse_resolved (hS : S.Allocates) (hfiles : S.ServesFiles files)
    (hwords : ∀ fd, WordsShort (files fd)) : ∀ (n : Nat) (filename : Option (List UInt8))
      (cf : Cf σ), cf.AtCall S files →
      Resolved S files (parseCalls S T n filename cf) (confParse S T n filename cf).2
  | 0, _, _, h => Resolved.nil h
  | n + 1, none, cf, ⟨conf, hconf, hat⟩ => by
    simp only [parseCalls, confParse, hconf]
    exact parseLoop_resolved hS hwords (parse_resolved hS hfiles hwords n) _ cf hconf hat
  | n + 1, some filename, cf, ⟨conf, hconf, hat⟩ => by
    obtain ⟨hcalls, hsame⟩ := named_decided hS hfiles hwords (parse_resolved hS hfiles hwords n)
      filename cf
    exact hcalls.imp id fun hquiet => ⟨hquiet, conf, hsame.trans hconf, hat⟩

/-- A run on a file, whatever its handlers do. -/
theorem parseCalls_decided (hS : S.Allocates) (hfiles : S.ServesFiles files)
    (hwords : ∀ fd, WordsShort (files fd)) (T : Table σ) (n : Nat) (filename : List UInt8)
    (cf : Cf σ) : Decided S files (parseCalls S T n (some filename) cf) := by
  cases n with
  | zero => exact Or.inr (by simp [parseCalls])
  | succ n =>
    exact (named_decided hS hfiles hwords (parse_resolved hS hfiles hwords n) filename cf).1

/-! ## 7. When a parse meets no report

The statement is about the calls made while a file is parsed, so what is asked of its text is asked
of what is ahead of these calls.  If all gaps of all files are short this is so in every
run (`calls_quiet`). -/

/-- **When exactly a parse of files with short words meets no report**: the gaps ahead of each of
its calls are short.  A gap is the comments and blanks between two items, and it is too long when
the buffer is full before it ends; files that the handlers open are asked for the same. -/
theorem no_tooLong_iff {σ : Type} {S : Sys σ} {files : Int → List UInt8} (hS : S.Allocates)
    (hfiles : S.ServesFiles files) (hwords : ∀ fd, WordsShort (files fd)) (T : Table σ) (n : Nat)
    (filename : List UInt8) (cf : Cf σ) :
    (∀ c ∈ parseCalls S T n (some filename) cf, ¬ (readToken S c.conf c.world).TooLong) ↔
      ∀ c ∈ parseCalls S T n (some filename) cf, GapsShort (c.ahead files) := by
  rcases parseCalls_decided hS hfiles hwords T n filename cf with ⟨c, hc, -, hloud, hgap⟩ | hquiet
  · exact iff_of_false (fun h => h c hc hloud) fun h => hgap (h c hc)
  · exact iff_of_true (fun c hc => (hquiet c hc).1) fun c hc => (hquiet c hc).2

/-- Between the words of a text, fewer than `CW_CONF_BUFFER` bytes have gone by since the last item
began. -/
def LayoutShort (text : List UInt8) : Prop :=
  ∀ pre c post, text = pre ++ c :: post → (∀ q var esc, (standOn pre).mode ≠ .word q var esc) →
    (standOn pre).since < confBuffer

/-- Files whose layout is short as well meet no report, whatever the directives are and whatever
is done about them. -/
theorem calls_quiet (hS : S.Allocates) (hfiles : S.ServesFiles files)
    (hwords : ∀ fd, WordsShort (files fd)) (hlayout : ∀ fd, LayoutShort (files fd)) (T : Table σ)
    (n : Nat) (filename : List UInt8) (cf : Cf σ) :
    ∀ c ∈ parseCalls S T n (some filename) cf, ¬ (readToken S c.conf c.world).TooLong := by
  rcases parseCalls_decided hS hfiles hwords T n filename cf with
    ⟨c, hc, ⟨fd, pre, rest, hholds, hfile, hplace⟩, -, hgap⟩ | hquiet
  · refine absurd ?_ hgap
    rw [show c.ahead files = rest from ahead_eq hholds c.world]
    rintro p d post s rfl hs hword
    have hstart : standOn pre = .start := hplace.resolve_left (by simp)
    have hstand : standOn (pre ++ p) = s := by
      rw [standOn_append, hstart]
      exact foldl_scanOn_of_advance hs
    have hlt := hlayout fd (pre ++ p) d post (by rw [hfile, List.append_assoc])
    rw [hstand] at hlt
    exact hlt hword
  · exact fun c hc => (hquiet c hc).1

end

/-! ## 8. Two files

What is asked of a text can be computed, by one run of the lexer over it. -/

/-- Something holds of the lexer at every place of a text. -/
def holdsAlong (p : Lexer → Bool) : Lexer → List UInt8 → Bool
  | s, [] => p s
  | s, c :: xs => p s && holdsAlong p (s.scanOn c) xs

theorem holdsAlong_iff {p : Lexer → Bool} : ∀ {xs : List UInt8} {s : Lexer},
    holdsAlong p s xs = true ↔
      ∀ pre post, xs = pre ++ post → p (pre.foldl Lexer.scanOn s) = true
  | [], s => by
    constructor
    · rintro h pre post heq
      obtain ⟨rfl, rfl⟩ := List.append_eq_nil_iff.mp heq.symm
      exact h
    · exact fun h => h [] [] rfl
  | c :: xs, s => by
    rw [holdsAlong, Bool.and_eq_true, holdsAlong_iff]
    constructor
    · rintro ⟨hs, hrest⟩ pre post heq
      cases pre with
      | nil => exact hs
      | cons d pre =>
        obtain ⟨rfl, rfl⟩ := List.cons.inj heq
        exact hrest pre post rfl
    · intro h
      refine ⟨h [] _ rfl, fun pre post heq => ?_⟩
      exact h (c :: pre) post (by rw [heq, List.cons_append])

/-- The condition on words, at one place. -/
def Lexer.wordShort (s : Lexer) : Bool :=
  match s.mode with
  | .word _ _ _ => s.since < confBuffer - 2
  | _ => true

/-- The condition on the rest, at one place. -/
def Lexer.layoutShort (s : Lexer) : Bool :=
  match s.mode with
  | .word _ _ _ => true
  | _ => s.since < confBuffer

theorem wordsShort_of_along {text : List UInt8}
    (h : holdsAlong Lexer.wordShort .start text = true) : WordsShort text := by
  intro pre post q var esc heq hm
  have hp := holdsAlong_iff.mp h pre post heq
  rw [← standOn, Lexer.wordShort, hm] at hp
  exact of_decide_eq_true hp

theorem layoutShort_of_along {text : List UInt8}
    (h : holdsAlong Lexer.layoutShort .start text = true) : LayoutShort text := by
  intro pre c post heq hword
  have hp := holdsAlong_iff.mp h pre (c :: post) heq
  rw [← standOn, Lexer.layoutShort] at hp
  split at hp
  · rename_i q var esc hm
    exact absurd hm (hword q var esc)
  · exact of_decide_eq_true hp

theorem Sys.plain_servesFiles (text : List UInt8) :
    (Sys.plain text).configured.ServesFiles fun _ => text where
  fdInfo _ _ := rfl
  serves _ _ _ _ := rfl

theorem Sys.plain_configured_allocates (text : List UInt8) :
    (Sys.plain text).configured.Allocates := ⟨fun _ => rfl, fun _ _ => rfl⟩

/-- The main context. -/
def mainCf : Cf (Configured Unit) where
  args := []
  conf := none
  view := { ctx := 1, moduleType := coreModule, cmdType := mainConf, handler := 0 }
  world := { sys := (), slots := fun _ => 1, core := fun _ => .fresh 0 }

/-- The first call of a parse is at the beginning of its file. -/
theorem plain_first_call (text : List UInt8) (T : Table (Configured Unit)) (n : Nat) : ∃ rest,
    parseCalls (Sys.plain text).configured T (n + 1) (some []) mainCf
      = ⟨.opened 3 text.length, mainCf.world⟩ :: rest := ⟨_, rfl⟩

/-- Two comments of 3000 bytes with a directive between them: more than a buffer. -/
def commentedFile : List UInt8 :=
  let comment := Ch.sharp :: (List.replicate 3000 97 ++ [Ch.lf])
  comment ++ workerProcessesText ++ [Ch.space, 50, Ch.semicolon, Ch.lf] ++ comment

/-- The statement for a file that is refilled in its second comment: the gaps ahead of every call
are short. -/
theorem no_tooLong_iff_sample :
    commentedFile.length = 6024 ∧
    (∃ c rest, parseCalls (Sys.plain commentedFile).configured (coreTable 4) 1 (some []) mainCf
      = c :: rest) ∧
    ∀ c ∈ parseCalls (Sys.plain commentedFile).configured (coreTable 4) 1 (some []) mainCf,
      GapsShort (c.ahead fun _ => commentedFile) := by
  have hwords : WordsShort commentedFile := wordsShort_of_along (by decide +kernel)
  have hlayout : LayoutShort commentedFile := layoutShort_of_along (by decide +kernel)
  obtain ⟨rest, hfirst⟩ := plain_first_call commentedFile (coreTable 4) 0
  refine ⟨by decide +kernel, ⟨_, rest, hfirst⟩, ?_⟩
  refine (no_tooLong_iff (Sys.plain_configured_allocates _) (Sys.plain_servesFiles _)
    (fun _ => hwords) (coreTable 4) 1 [] mainCf).mp ?_
  exact calls_quiet (Sys.plain_configured_allocates _) (Sys.plain_servesFiles _) (fun _ => hwords)
    (fun _ => hlayout) (coreTable 4) 1 [] mainCf

/-- A comment of 4097 bytes, and nothing else. -/
def longComment : List UInt8 := Ch.sharp :: List.replicate 4096 97

/-- In a comment the lexer counts bytes. -/
theorem advance_comment : ∀ (n : Nat) {s : Lexer}, s.mode = .comment →
    Loop.advance (Lexer.step none) s (List.replicate n 97) = some { s with since := s.since + n }
  | 0, _, _ => rfl
  | n + 1, s, hm => by
    have hnext : s.step none 97 = .next { s with since := s.since + 1 } := by
      rw [Lexer.step_none]
      simp +decide [Lexer.read, hm]
    have hrest := advance_comment n (s := { s with since := s.since + 1 }) hm
    rw [List.replicate_succ, Loop.advance_next hnext, hrest]
    simp only [Option.some.injEq, Lexer.mk.injEq, true_and]
    omega

theorem longComment_short : WordsShort longComment :=
  wordsShort_of_along (by decide +kernel)

/-- It has no word at all, and the first call of its parse reports a parameter that is too long. -/
theorem longComment_tooLong :
    WordsShort longComment ∧
      ∃ c ∈ parseCalls (Sys.plain longComment).configured (coreTable 4) 1 (some []) mainCf,
        (readToken (Sys.plain longComment).configured c.conf c.world).TooLong := by
  obtain ⟨rest, hfirst⟩ := plain_first_call longComment (coreTable 4) 0
  refine ⟨longComment_short, _, hfirst ▸ List.mem_cons_self, ?_⟩
  have hsharp : Lexer.start.step none Ch.sharp
      = .next { Lexer.start with mode := .comment, since := 1 } := by
    rw [Lexer.step_none, Lexer.read_gap rfl, Lexer.inGap_sharp]
  refine (readToken_tooLong_iff (Sys.plain_configured_allocates _)
    (ConfFile.opened_holds ((Sys.plain_servesFiles _).serves 3)) _).mpr ?_
  refine ⟨Ch.sharp :: List.replicate 4095 97, 97, [],
    { Lexer.start with mode := .comment, since := 1 + 4095 }, ?_, ?_, rfl⟩
  · rw [longComment, List.cons_append, ← List.replicate_succ']
  · rw [Loop.advance_next hsharp]
    exact advance_comment 4095 rfl

end Capwap
