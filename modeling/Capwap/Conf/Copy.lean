/-
# The copy of a word is in step with the scanner

When a word ends, a second loop copies its bytes and takes the escapes out.  It advances by one or
two bytes and tests only `src < b->pos - 1`, so it stays inside the word because the scanner's
`quoted` has paired the backslashes in the same way: at the end of a word none is pending, hence
none is the last byte (`copyLoop_eq`).

`copyReads` lists the places the loop reads, and there are no others: memory that agrees there is
copied in the same way (`copyLoop_reads`).  For every word that a call pushes, whatever the text
is, the loop stops at the terminator, reads nothing behind it, and what it writes fits into what
`cw_pnalloc` was asked for (`copy_inStep`).
-/
import Capwap.Conf.Calls
import Capwap.Conf.Rounds

namespace Capwap

/-! ## 1. What the loop reads and writes

The loop is a function of the memory and of the two places, so what it reads cannot be seen in its
result.  `copyReads` follows the same recursion and lists the places; that the list is complete is
a theorem about two memories (`copyLoop_reads`).  All lemmas of this section hold of any memory,
with a pending backslash at the end too. -/

/-- The places that the copy loop reads, in order: `*src`, and `src[1]` behind a backslash. -/
def copyReads (mem : List UInt8) (stop : Nat) : Nat → Nat → List Nat
  | 0, _ => []
  | n + 1, src =>
    if src < stop then
      (if mem.getD src 0 = Ch.backslash then [src, src + 1] else [src])
        ++ copyReads mem stop n (copyByte mem src).2
    else []

/-- Where the next round starts: a byte further, or two behind a backslash. -/
theorem copyByte_next (mem : List UInt8) (src : Nat) :
    (copyByte mem src).2 = src + 1 ∨
      mem.getD src 0 = Ch.backslash ∧ (copyByte mem src).2 = src + 2 := by
  unfold copyByte
  by_cases h : mem.getD src 0 = Ch.backslash
  · rw [if_pos h]
    simp only
    split_ifs
    · exact Or.inr ⟨h, rfl⟩
    · exact Or.inr ⟨h, rfl⟩
    · exact Or.inr ⟨h, rfl⟩
    · exact Or.inr ⟨h, rfl⟩
    · exact Or.inl rfl
  · rw [if_neg h]
    exact Or.inl rfl

/-- A byte is written for every one passed over at most. -/
theorem copyLoop_length (mem : List UInt8) (stop : Nat) : ∀ (n src : Nat),
    (copyLoop mem stop n src).1.length ≤ stop - src := by
  intro n
  induction n with
  | zero =>
    intro src
    exact Nat.zero_le _
  | succ n ih =>
    intro src
    unfold copyLoop
    by_cases hlt : src < stop
    · rw [if_pos hlt]
      have hrec := ih (copyByte mem src).2
      have hnext := copyByte_next mem src
      simp only [List.length_cons]
      omega
    · rw [if_neg hlt]
      exact Nat.zero_le _

/-- `src` does not move back. -/
theorem copyLoop_from (mem : List UInt8) (stop : Nat) : ∀ (n src : Nat),
    src ≤ (copyLoop mem stop n src).2 := by
  intro n
  induction n with
  | zero =>
    intro src
    exact Nat.le_refl _
  | succ n ih =>
    intro src
    unfold copyLoop
    by_cases hlt : src < stop
    · rw [if_pos hlt]
      have hrec := ih (copyByte mem src).2
      have hnext := copyByte_next mem src
      simp only
      omega
    · simp only [if_neg hlt, Nat.le_refl]

/-- The loop does not look behind the byte that ends the word, whatever the word is: `src` is
before `stop` when a round begins, and a round reads one byte further at most. -/
theorem copyReads_le (mem : List UInt8) (stop : Nat) : ∀ (n src : Nat),
    ∀ i ∈ copyReads mem stop n src, i ≤ stop := by
  intro n
  induction n with
  | zero =>
    intro src i hi
    simp [copyReads] at hi
  | succ n ih =>
    intro src i hi
    unfold copyReads at hi
    by_cases hlt : src < stop
    · rw [if_pos hlt] at hi
      rcases List.mem_append.mp hi with hi | hi
      · split at hi
        · rcases List.mem_cons.mp hi with rfl | hi
          · exact Nat.le_of_lt hlt
          · obtain rfl := List.mem_singleton.mp hi
            exact hlt
        · obtain rfl := List.mem_singleton.mp hi
          exact Nat.le_of_lt hlt
      · exact ih _ i hi
    · rw [if_neg hlt] at hi
      simp at hi

/-- Whatever a round finds, `*src` is read. -/
theorem mem_places (p : Prop) [Decidable p] (src : Nat) :
    src ∈ if p then [src, src + 1] else [src] := by
  split
  · exact List.mem_cons_self
  · exact List.mem_singleton_self src

/-- A round depends on what it reads. -/
theorem copyByte_reads {mem mem' : List UInt8} {src : Nat}
    (h : ∀ i ∈ if mem.getD src 0 = Ch.backslash then [src, src + 1] else [src],
      mem'.getD i 0 = mem.getD i 0) : copyByte mem' src = copyByte mem src := by
  have hfirst : mem'.getD src 0 = mem.getD src 0 := h src (mem_places _ src)
  unfold copyByte
  rw [hfirst]
  by_cases hback : mem.getD src 0 = Ch.backslash
  · rw [if_pos hback] at h
    rw [h (src + 1) (List.mem_cons_of_mem _ (List.mem_singleton_self _))]
  · rw [if_neg hback, if_neg hback]

/-- **The loop reads nothing else**: memory that agrees at these places is read there, and copied in
the same way. -/
theorem copyLoop_reads {mem mem' : List UInt8} {stop : Nat} : ∀ (n src : Nat),
    (∀ i ∈ copyReads mem stop n src, mem'.getD i 0 = mem.getD i 0) →
    copyReads mem' stop n src = copyReads mem stop n src ∧
      copyLoop mem' stop n src = copyLoop mem stop n src := by
  intro n
  induction n with
  | zero =>
    intro src _
    exact ⟨rfl, rfl⟩
  | succ n ih =>
    intro src h
    unfold copyReads copyLoop
    unfold copyReads at h
    by_cases hlt : src < stop
    · rw [if_pos hlt] at h
      have hbyte := copyByte_reads fun i hi => h i (List.mem_append_left _ hi)
      have hfirst : mem'.getD src 0 = mem.getD src 0 :=
        h src (List.mem_append_left _ (mem_places _ src))
      obtain ⟨hreads, hloop⟩ := ih _ fun i hi => h i (List.mem_append_right _ hi)
      simp only [if_pos hlt, hbyte, hfirst, hreads, hloop, and_self]
    · simp only [if_neg hlt, and_self]

/-- What lies behind the word does not matter to its copy. -/
theorem copyLoop_behind {mem mem' : List UInt8} {stop : Nat}
    (h : ∀ i ≤ stop, mem'.getD i 0 = mem.getD i 0) (n src : Nat) :
    copyLoop mem' stop n src = copyLoop mem stop n src :=
  (copyLoop_reads n src fun i hi => h i (copyReads_le mem stop n src i hi)).2

/-- More rounds take `src` no further back. -/
theorem copyLoop_mono (mem : List UInt8) (stop : Nat) : ∀ (src : Nat) {n k : Nat}, n ≤ k →
    (copyLoop mem stop n src).2 ≤ (copyLoop mem stop k src).2 := by
  intro src n k hle
  induction n generalizing src k with
  | zero =>
    exact copyLoop_from mem stop k src
  | succ n ih =>
    obtain ⟨k, rfl⟩ : ∃ k', k = k' + 1 := ⟨k - 1, by omega⟩
    unfold copyLoop
    by_cases hlt : src < stop
    · rw [if_pos hlt, if_pos hlt]
      exact ih _ (by omega)
    · simp only [if_neg hlt, Nat.le_refl]

/-! ## 2. The words of a call

What is special about the words that are pushed is that the scanner has been over them.  Its flag
`quoted` is `decode`'s pending bit at each byte (`Tok.At`), and a word ends where it is not set.
This is kept by refills that read anything at all, so nothing is asked of the system. -/

section
variable {σ : Type} {S : Sys σ} {t t' : Tok σ} {c : UInt8}

/-- A file as a parse sets it up, and as calls of the tokenizer leave it. -/
inductive ConfFile.Used (S : Sys σ) : ConfFile → Prop
  | opened (fd : Int) (size : Nat) : Used S (.opened fd size)
  | param (data : List UInt8) : Used S (.param data)
  | call {conf : ConfFile} (h : Used S conf) (w : σ) : Used S (readToken S conf w).conf

/-- A call that ends after a byte leaves `pos` behind it. -/
theorem scan_pos_le {m : Mode} (h : t.At m) {r : TokenResult σ} (hs : scan S t = .done r) :
    r.conf.buffer.pos ≤ r.conf.buffer.bytes.length := by
  cases hc : t.conf.buffer.bytes[t.conf.buffer.pos]? with
  | none =>
    unfold scan at hs
    simp only [hc] at hs
    obtain rfl := Step.done.inj hs
    exact h.pos_le
  | some c =>
    obtain ⟨m', mv, -, hafter⟩ := h.scan_after S hc
    rw [(Tok.after_conf S t c m'.flags mv).2 r (hafter.symm.trans hs)]
    exact (List.getElem?_eq_some_iff.mp hc).1

/-- A call leaves `pos` within the buffer, whatever the reads return. -/
theorem readToken_pos_le {conf : ConfFile} (w : σ)
    (h : conf.buffer.pos ≤ conf.buffer.bytes.length) :
    (readToken S conf w).conf.buffer.pos ≤ (readToken S conf w).conf.buffer.bytes.length := by
  unfold readToken
  split
  · rename_i r hrun
    refine Loop.run_invariant (I := fun t : Tok σ => ∃ m, t.At m)
      (P := fun r : TokenResult σ => r.conf.buffer.pos ≤ r.conf.buffer.bytes.length)
      ?_ ?_ ⟨.gap, .init S w h⟩ hrun
    · rintro t t' ⟨m, hm⟩ hs
      exact tokenStep_at hm hs
    · rintro t r ⟨m, hm⟩ hs
      unfold tokenStep at hs
      cases hr : refill S t with
      | done r₁ =>
        simp only [hr] at hs
        obtain rfl := Step.done.inj hs
        have href := refill_refills S t
        rw [hr] at href
        cases href with
        | fileDone _ _ _ _ => exact hm.pos_le
        | unfinished _ _ _ => exact hm.pos_le
        | tooLong _ _ => exact hm.pos_le
        | readFailed _ _ => exact hm.pos_le
        | readShort _ _ _ => exact hm.pos_le
      | next t₁ =>
        simp only [hr] at hs
        exact scan_pos_le (hm.refill hr) hs
  · exact h

theorem ConfFile.Used.pos_le {conf : ConfFile} (h : conf.Used S) :
    conf.buffer.pos ≤ conf.buffer.bytes.length := by
  induction h with
  | opened fd size => exact Nat.le_refl _
  | param data => exact Nat.zero_le _
  | call _ w ih => exact readToken_pos_le w ih

/-- At the head of every round of a call the state is in order, whatever the reads return. -/
theorem Tok.At.reaches {conf : ConfFile} (h : conf.Used S) {w : σ}
    (ht : Loop.Reaches (tokenStep S) (Tok.init S conf w) t) : ∃ m, t.At m := by
  refine ht.invariant (I := fun t : Tok σ => ∃ m, t.At m) ?_ ⟨.gap, .init S w h.pos_le⟩
  rintro t t' ⟨m, hm⟩ hs
  exact tokenStep_at hm hs

/-- A word that ends at `stop` is copied in step with the scanner: `src` ends at `stop` however
many rounds are allowed, nothing behind `stop` is read, and what is written has room in what was
allocated. -/
structure CopiedInStep (bytes : List UInt8) (start stop : Nat) : Prop where
  start_le : start ≤ stop
  /-- the terminator is in the buffer -/
  stop_lt : stop < bytes.length
  /-- the loop ends with `src` at the terminator -/
  lands : ∀ n, stop - start ≤ n → copyLoop bytes stop n start
    = copyLoop bytes stop (stop - start) start ∧ (copyLoop bytes stop n start).2 = stop
  /-- `src` is never behind it -/
  src_le : ∀ n, (copyLoop bytes stop n start).2 ≤ stop
  /-- nothing behind it is read -/
  reads : ∀ n, ∀ i ∈ copyReads bytes stop n start, i ≤ stop
  /-- the bytes written before the NUL are as many as `len` says, and all fit -/
  writes : (copyWord bytes start stop).data
      = (copyLoop bytes stop (stop - start) start).1 ++ [0] ∧
    (copyWord bytes start stop).len = (copyLoop bytes stop (stop - start) start).1.length ∧
    (copyWord bytes start stop).len ≤ stop - start

/-- A word whose bytes leave no backslash pending. -/
theorem CopiedInStep.of_decode {bytes : List UInt8} {start stop : Nat} (hle : start ≤ stop)
    (hlt : stop < bytes.length) (hdec : (decode (slice bytes start stop)).2 = false) :
    CopiedInStep bytes start stop where
  start_le := hle
  stop_lt := hlt
  lands n hn := by
    have hloop := copyLoop_eq (Nat.le_of_lt hlt) hle hn (Prod.ext rfl hdec)
    rw [hloop, copyLoop_eq (Nat.le_of_lt hlt) hle (Nat.le_refl _) (Prod.ext rfl hdec)]
    exact ⟨rfl, rfl⟩
  src_le n := by
    have hloop := copyLoop_eq (Nat.le_of_lt hlt) hle (Nat.le_add_left (stop - start) n)
      (Prod.ext rfl hdec)
    have hmono := copyLoop_mono bytes stop start (Nat.le_add_right n (stop - start))
    rw [hloop] at hmono
    exact hmono
  reads n := copyReads_le bytes stop n start
  writes := ⟨rfl, rfl, copyLoop_length bytes stop _ _⟩

/-- **The copy loop is in step with the scanner.**  For every text, whatever the reads return: when
a call pushes a word, what is copied is the word between `start` and the byte just taken, into as
many bytes as `cw_pnalloc` was asked for, and `src` stops at that byte. -/
theorem copy_inStep {conf : ConfFile} (h : conf.Used S) {w : σ}
    (ht : Loop.Reaches (tokenStep S) (Tok.init S conf w) t) (hr : refill S t = .next t')
    (hc : t'.conf.buffer.bytes[t'.conf.buffer.pos]? = some c)
    (hword : (scanByte t'.flags t'.args.length c).2 = .word) :
    CopiedInStep t'.conf.buffer.bytes t'.start t'.conf.buffer.pos ∧
      Pushes S { t' with flags := (scanByte t'.flags t'.args.length c).1
                         conf := t'.conf.advance c } t'.conf.buffer.pos c (tokenStep S t) := by
  obtain ⟨m, hm⟩ := Tok.At.reaches h ht
  have hm' := hm.refill hr
  have hstep : tokenStep S t = t'.after S c (scanByte t'.flags t'.args.length c).1 .word := by
    unfold tokenStep
    simp only [hr]
    exact scan_eq S hc (Prod.ext rfl hword)
  refine ⟨.of_decode hm'.start_le (List.getElem?_eq_some_iff.mp hc).1 ?_, ?_⟩
  · obtain ⟨m', -, hscans⟩ := scanByte_scans m t'.args.length c
    rw [← hm'.flags, hword] at hscans
    obtain ⟨⟨q, var, hmode, -⟩, -⟩ := hscans.ending
    exact hm'.pending q var false hmode
  · rw [hstep]
    exact pushWord_pushes S _ _ c

end

/-- The statement for the word `a\";`, which ends in an escaped quote. -/
theorem copy_inStep_sample :
    let S := Sys.plain []
    let text : List UInt8 := [97, Ch.backslash, Ch.dquote, Ch.semicolon]
    let t (m : Mode) (pos : Nat) : Tok Unit := { Tok.init S (.param text) () with
      flags := m.flags
      conf := { ConfFile.param text with buffer := { bytes := text, pos := pos, cap := 4 } } }
    let last := t (.word .bare false false) 3
    Loop.Reaches (tokenStep S) (Tok.init S (.param text) ()) last ∧ CopiedInStep text 0 3 ∧
      Pushes S { last with
          flags := Mode.gap.flags
          conf := last.conf.advance Ch.semicolon } 3 Ch.semicolon (tokenStep S last) := by
  intro S text t last
  have h1 : tokenStep S (Tok.init S (.param text) ()) = .next (t (.word .bare false false) 1) := rfl
  have h2 : tokenStep S (t (.word .bare false false) 1) = .next (t (.word .bare false true) 2) :=
    rfl
  have h3 : tokenStep S (t (.word .bare false true) 2) = .next last := rfl
  have hreach := Loop.Reaches.head h1 (.head h2 (.head h3 .refl))
  exact ⟨hreach, copy_inStep (.param text) hreach rfl rfl rfl⟩

end Capwap
