/-
# The tokenizer stays inside its buffer

`ConfFile.Ok` is the order of a buffer's pointers and of a file's offset: what a parse sets up has
it, and every call keeps it, whatever the reads return (`readToken_inOrder`).  At the head of every
round of a call `start` is in order with the others (`InBuffer`), a refill asks for a byte at least
and for no more than there is room for (`request_bounds`), and after it there is a byte at `pos`.

A round takes one byte (`tokenStep_takes`), so that the bytes at hand bound the rounds, and a call
that returns a code has taken one.  `TokenSafe` puts this together for one call.
-/
import Capwap.Conf.Calls
import Capwap.Conf.Rounds

namespace Capwap

/-! ## 1. Buffers and files in order

The order of the pointers is an invariant of the buffer between calls (`ConfFile.Ok`) and, with
`start`, of a call between rounds (`InBuffer`).  The read of a refill needs two facts from it:
there is room for what is asked (`b->end - (b->start + len)`), and the file has at least a byte
left. -/

/-- `b->start <= b->pos <= b->last <= b->end` and `file.offset <= file_size`; what is still to be
read goes into a buffer of `CW_CONF_BUFFER` bytes. -/
structure ConfFile.Ok (conf : ConfFile) : Prop where
  pos_le : conf.buffer.pos ≤ conf.buffer.bytes.length
  last_le : conf.buffer.bytes.length ≤ conf.buffer.cap
  offset_le : conf.file.offset ≤ conf.file.size
  room : conf.file.size = 0 ∨ conf.buffer.cap = confBuffer

theorem ConfFile.Ok.opened (fd : Int) (size : Nat) : (ConfFile.opened fd size).Ok :=
  ⟨Nat.le_refl _, Nat.zero_le _, Nat.zero_le _, Or.inr rfl⟩

theorem ConfFile.Ok.param (data : List UInt8) : (ConfFile.param data).Ok :=
  ⟨Nat.zero_le _, Nat.le_refl _, Nat.le_refl _, Or.inl rfl⟩

/-- A read returns at most the bytes it was asked for.  `pread` promises this; it may return fewer,
or fail, at any time. -/
def Sys.ReadsWithin {σ : Type} (S : Sys σ) : Prop :=
  ∀ fd n off w bs, (S.pread fd n off w).1 = some bs → bs.length ≤ n

/-- The pointers of a round: `start` is in order with those of the buffer. -/
structure InBuffer {σ : Type} (t : Tok σ) : Prop extends t.conf.Ok where
  start_le : t.start ≤ t.conf.buffer.pos

section
variable {σ : Type} {S : Sys σ} {t t' : Tok σ} {m : Mode} {r : TokenResult σ} {c : UInt8} {n : Nat}

/-- The read of a refill: there is something to read, and there is room for it. -/
theorem request_bounds (h : InBuffer t) (hreq : t.request = some n) :
    1 ≤ n ∧ n ≤ t.conf.buffer.cap - (t.conf.buffer.pos - t.start) ∧
      t.conf.file.offset + n ≤ t.conf.file.size := by
  unfold Tok.request at hreq
  split at hreq
  · rename_i hc
    obtain rfl := Option.some.inj hreq
    have hpos := h.pos_le
    have hlast := h.last_le
    rcases h.room with h0 | hcap
    · omega
    · omega
  · cases hreq

theorem ConfFile.Ok.advance {conf : ConfFile} (h : conf.Ok)
    (hc : conf.buffer.bytes[conf.buffer.pos]? = some c) : (conf.advance c).Ok :=
  ⟨(List.getElem?_eq_some_iff.mp hc).1, h.last_le, h.offset_le, h.room⟩

/-- A refill goes on with a byte at `pos`, in a buffer in order, and takes no byte: the bytes read
come from the file's share of what is unread and go to the buffer's. -/
theorem refill_bounds (ht : t.At m) (h : InBuffer t) (hr : refill S t = .next t') :
    InBuffer t' ∧ t'.conf.buffer.pos < t'.conf.buffer.bytes.length ∧
      t'.conf.unread = t.conf.unread := by
  have href := refill_refills S t
  rw [hr] at href
  cases href with
  | inside hlt => exact ⟨h, hlt, rfl⟩
  | @filled n bs w hreq _ hlen =>
    obtain ⟨hone, hroom, hsize⟩ := request_bounds h hreq
    have hraw := Tok.raw_length ht
    have hpos := h.pos_le
    have hge : t.conf.buffer.pos ≥ t.conf.buffer.bytes.length := by
      unfold Tok.request at hreq
      split at hreq
      · rename_i hc
        exact hc.1
      · cases hreq
    have hcap : t.conf.buffer.pos - t.start ≤ t.conf.buffer.cap := by
      have := h.last_le
      omega
    refine ⟨⟨⟨?_, ?_, ?_, h.room⟩, Nat.zero_le _⟩, ?_, ?_⟩ <;>
      simp only [Tok.fill, ConfFile.took, ConfFile.unread, List.length_append, hraw, hlen] <;> omega

/-- A call that ends in a refill leaves the buffer in order, and has taken no byte. -/
theorem refill_done (hS : S.ReadsWithin) (h : InBuffer t) (hr : refill S t = .done r) :
    r.conf.Ok ∧ r.conf.unread ≤ t.conf.unread ∧ ∀ rc, r.rc = .ok rc → rc = .fileDone := by
  have href := refill_refills S t
  rw [hr] at href
  cases href with
  | fileDone _ _ _ _ => exact ⟨h.toOk, Nat.le_refl _, fun rc hrc => (Except.ok.inj hrc).symm⟩
  | unfinished _ _ _ => exact ⟨h.toOk, Nat.le_refl _, fun rc hrc => by cases hrc⟩
  | tooLong _ _ =>
    exact ⟨⟨h.pos_le, h.last_le, h.offset_le, h.room⟩, Nat.le_refl _, fun rc hrc => by cases hrc⟩
  | readFailed _ _ => exact ⟨h.toOk, Nat.le_refl _, fun rc hrc => by cases hrc⟩
  | @readShort n bs w hreq hread _ =>
    have hle : bs.length ≤ n := hS _ _ _ _ bs (by rw [hread])
    obtain ⟨-, -, hsize⟩ := request_bounds h hreq
    refine ⟨⟨h.pos_le, h.last_le, ?_, h.room⟩, ?_, fun rc hrc => by cases hrc⟩
    · simp only [ConfFile.took]; omega
    · simp only [ConfFile.took, ConfFile.unread]; omega

/-- What follows a byte: the buffer is in order and one byte is taken. -/
theorem scan_takes (ht : t.At m) (h : InBuffer t)
    (hlt : t.conf.buffer.pos < t.conf.buffer.bytes.length) :
    (∀ t', scan S t = .next t' → InBuffer t' ∧ t'.conf.unread + 1 = t.conf.unread) ∧
      ∀ r, scan S t = .done r → r.conf.Ok ∧ r.conf.unread + 1 = t.conf.unread := by
  obtain ⟨c, hc⟩ : ∃ c, t.conf.buffer.bytes[t.conf.buffer.pos]? = some c :=
    ⟨_, List.getElem?_eq_getElem hlt⟩
  have hok := h.toOk.advance hc
  have hone : (t.conf.advance c).unread + 1 = t.conf.unread := by
    simp only [ConfFile.unread, ConfFile.advance]
    omega
  obtain ⟨m', mv, -, hafter⟩ := ht.scan_after S hc
  obtain ⟨hnext, hdone⟩ := Tok.after_conf S t c m'.flags mv
  constructor
  · intro t' hs
    have hconf := hnext t' (hafter.symm.trans hs)
    obtain ⟨m'', hat⟩ := ht.scan hs
    exact ⟨⟨hconf ▸ hok, hat.start_le⟩, hconf ▸ hone⟩
  · intro r hs
    have hconf := hdone r (hafter.symm.trans hs)
    exact ⟨hconf ▸ hok, hconf ▸ hone⟩

/-! ## 2. One call

A round that goes on has taken one byte, so the bytes at hand are a measure.  What holds at the
head of every round holds of the state in which the last one ends, and a call leaves the file as
ordered as it found it. -/

/-- The state at the head of a round is in order. -/
def Tok.Fit (t : Tok σ) : Prop := (∃ m, t.At m) ∧ InBuffer t

theorem Tok.Fit.init (S : Sys σ) {conf : ConfFile} (h : conf.Ok) (w : σ) :
    (Tok.init S conf w).Fit :=
  ⟨⟨.gap, .init S w h.pos_le⟩, ⟨h, Nat.le_refl _⟩⟩

/-- A round goes on with one byte taken. -/
theorem tokenStep_next (h : t.Fit) (hs : tokenStep S t = .next t') :
    t'.Fit ∧ t'.conf.unread + 1 = t.conf.unread := by
  obtain ⟨⟨m, ht⟩, hin⟩ := h
  have hat := tokenStep_at ht hs
  unfold tokenStep at hs
  cases hr : refill S t with
  | done r => simp [hr] at hs
  | next t₁ =>
    simp only [hr] at hs
    obtain ⟨hin₁, hlt, hunread⟩ := refill_bounds ht hin hr
    obtain ⟨hin', hone⟩ := (scan_takes (ht.refill hr) hin₁ hlt).1 t' hs
    exact ⟨⟨hat, hin'⟩, hone.trans hunread⟩

/-- A call ends with its file in order; when it returns a code but for the end of the file, it
has taken a byte. -/
theorem tokenStep_done (hS : S.ReadsWithin) (h : t.Fit) (hs : tokenStep S t = .done r) :
    r.conf.Ok ∧ r.conf.unread ≤ t.conf.unread ∧
      ∀ rc, r.rc = .ok rc → rc ≠ .fileDone → r.conf.unread < t.conf.unread := by
  obtain ⟨⟨m, ht⟩, hin⟩ := h
  unfold tokenStep at hs
  cases hr : refill S t with
  | done r₁ =>
    simp only [hr] at hs
    obtain rfl := Step.done.inj hs
    obtain ⟨hok, hle, hrc⟩ := refill_done hS hin hr
    exact ⟨hok, hle, fun rc h hne => absurd (hrc rc h) hne⟩
  | next t₁ =>
    simp only [hr] at hs
    obtain ⟨hin₁, hlt, hunread⟩ := refill_bounds ht hin hr
    obtain ⟨hok, hone⟩ := (scan_takes (ht.refill hr) hin₁ hlt).2 r hs
    exact ⟨hok, by omega, fun rc _ _ => by omega⟩

/-- The reads of a refill ask for a byte at least, and for no more than the space behind the bytes
that are kept: nothing else that `pread` might answer matters. -/
theorem refill_asks (h : InBuffer t) {S' : Sys σ}
    (hsame : ∀ n, 1 ≤ n → n ≤ t.conf.buffer.cap - (t.conf.buffer.pos - t.start) →
      S'.pread t.conf.file.fd n t.conf.file.offset t.world
        = S.pread t.conf.file.fd n t.conf.file.offset t.world) :
    refill S' t = refill S t := by
  unfold refill readFile
  by_cases hge : t.conf.buffer.pos ≥ t.conf.buffer.bytes.length
  · rw [if_pos hge, if_pos hge]
    by_cases hoff : t.conf.file.offset ≥ t.conf.file.size
    · rw [if_pos hoff, if_pos hoff]
    · rw [if_neg hoff, if_neg hoff]
      by_cases hfull : t.conf.buffer.pos - t.start = confBuffer
      · simp only [if_pos hfull]
      · have hreq : t.request = some (min (t.conf.file.size - t.conf.file.offset)
            (t.conf.buffer.cap - (t.conf.buffer.pos - t.start))) :=
          if_pos ⟨hge, by omega, hfull⟩
        obtain ⟨hone, hroom, -⟩ := request_bounds h hreq
        have hsize : (if t.conf.file.size - t.conf.file.offset
            > t.conf.buffer.cap - (t.conf.buffer.pos - t.start)
            then t.conf.buffer.cap - (t.conf.buffer.pos - t.start)
            else t.conf.file.size - t.conf.file.offset)
              = min (t.conf.file.size - t.conf.file.offset)
                (t.conf.buffer.cap - (t.conf.buffer.pos - t.start)) := by
          split <;> omega
        simp only [if_neg hfull, hsize, hsame _ hone hroom]
  · rw [if_neg hge, if_neg hge]

/-- What holds of one call of `cw_conf_read_token` on `conf`: it ends, its reads stay inside the
buffer, and a byte has been taken when it returns a code other than that of the end of the file. -/
structure TokenSafe (S : Sys σ) (conf : ConfFile) (w : σ) : Prop where
  /-- the pointers are in order at the head of every round -/
  bounds : ∀ t, Loop.Reaches (tokenStep S) (Tok.init S conf w) t → InBuffer t
  /-- every read of a refill asks for a byte at least, and for what there is room for -/
  asks : ∀ t, Loop.Reaches (tokenStep S) (Tok.init S conf w) t →
    (∀ n, t.request = some n → 1 ≤ n ∧ n ≤ t.conf.buffer.cap - (t.conf.buffer.pos - t.start)) ∧
    ∀ S' : Sys σ, (∀ n, 1 ≤ n → n ≤ t.conf.buffer.cap - (t.conf.buffer.pos - t.start) →
      S'.pread t.conf.file.fd n t.conf.file.offset t.world
        = S.pread t.conf.file.fd n t.conf.file.offset t.world) → refill S' t = refill S t
  /-- after a refill there is a byte at `pos` -/
  below : ∀ t t', Loop.Reaches (tokenStep S) (Tok.init S conf w) t → refill S t = .next t' →
    t'.conf.buffer.pos < t'.conf.buffer.bytes.length
  /-- the loop ends, after no more rounds than there are bytes at hand, and one -/
  ends : Loop.run (tokenStep S) (conf.unread + 1) (Tok.init S conf w) = some (readToken S conf w)
  /-- a call that returns a code, but for the end of the file, has taken a byte -/
  takes : ∀ rc, (readToken S conf w).rc = .ok rc → rc ≠ .fileDone →
    (readToken S conf w).conf.unread < conf.unread

theorem Tok.Fit.reaches {conf : ConfFile} (h : conf.Ok) {w : σ}
    (ht : Loop.Reaches (tokenStep S) (Tok.init S conf w) t) : t.Fit :=
  ht.invariant (fun _ _ ha hs => (tokenStep_next ha hs).1) (.init S h w)

/-- The loop ends. -/
theorem readToken_ends {conf : ConfFile} (h : conf.Ok) (S : Sys σ) (w : σ) :
    Loop.run (tokenStep S) (conf.unread + 1) (Tok.init S conf w) = some (readToken S conf w) := by
  have hnext : ∀ t t' : Tok σ, t.Fit → tokenStep S t = .next t' →
      t'.Fit ∧ t'.conf.unread < t.conf.unread := by
    intro t t' ht hs
    obtain ⟨ht', hone⟩ := tokenStep_next ht hs
    exact ⟨ht', by omega⟩
  obtain ⟨r, hr⟩ : ∃ r, Loop.run (tokenStep S) (conf.unread + 1) (Tok.init S conf w) = some r :=
    Loop.run_measure (μ := fun t : Tok σ => t.conf.unread) hnext (Tok.Fit.init S h w)
      (Nat.lt_succ_self _)
  unfold readToken
  rw [hr]

/-- A call leaves its file in order, with no more to read than before. -/
theorem readToken_inOrder (hS : S.ReadsWithin) {conf : ConfFile} (h : conf.Ok) (w : σ) :
    (readToken S conf w).conf.Ok ∧ (readToken S conf w).conf.unread ≤ conf.unread ∧
      ∀ rc, (readToken S conf w).rc = .ok rc → rc ≠ .fileDone →
        (readToken S conf w).conf.unread < conf.unread := by
  refine Loop.run_invariant (I := fun t : Tok σ => t.Fit ∧ t.conf.unread ≤ conf.unread)
    (P := fun r : TokenResult σ => r.conf.Ok ∧ r.conf.unread ≤ conf.unread ∧
      ∀ rc, r.rc = .ok rc → rc ≠ .fileDone → r.conf.unread < conf.unread) ?_ ?_
    ⟨Tok.Fit.init S h w, Nat.le_refl _⟩ (readToken_ends h S w)
  · rintro t t' ⟨ht, hle⟩ hs
    obtain ⟨ht', hone⟩ := tokenStep_next ht hs
    exact ⟨ht', by omega⟩
  · rintro t r ⟨ht, hle⟩ hs
    obtain ⟨hok, hle', htakes⟩ := tokenStep_done hS ht hs
    refine ⟨hok, by omega, ?_⟩
    intro rc hrc hne
    have := htakes rc hrc hne
    omega

/-- A call on a file in order is safe, whatever the text is and whatever the reads return. -/
theorem readToken_safe (hS : S.ReadsWithin) {conf : ConfFile} (h : conf.Ok) (w : σ) :
    TokenSafe S conf w where
  bounds t ht := (Tok.Fit.reaches h ht).2
  asks t ht := by
    have hfit := Tok.Fit.reaches h ht
    refine ⟨fun n hreq => ?_, fun S' hsame => refill_asks hfit.2 hsame⟩
    obtain ⟨hone, hroom, -⟩ := request_bounds hfit.2 hreq
    exact ⟨hone, hroom⟩
  below t t' ht hr := by
    obtain ⟨⟨m, hat⟩, hin⟩ := Tok.Fit.reaches h ht
    exact (refill_bounds hat hin hr).2.1
  ends := readToken_ends h S w
  takes := (readToken_inOrder hS h w).2.2

end

theorem Sys.plain_readsWithin (content : List UInt8) : (Sys.plain content).ReadsWithin := by
  intro fd n off w bs h
  obtain rfl := Option.some.inj h
  simp only [List.length_take]
  omega

end Capwap
