/-
# Where a parameter is too long

`cw_conf_read_token` reports "too long parameter" when `CW_CONF_BUFFER` bytes have gone by since
the last item began and another byte is to come, wherever the refills happen to fall.  An item
begins at the entry of the call, at the first byte of a word behind its opening quote, and at a
`#`; `since` counts the bytes from there.

`standing` follows the lexer over as many calls as a text takes, without a limit, and ends at the
first error.  `Late` says that the report is due at some byte on the way, and `late_append` takes
the first call off a text.
-/
import Capwap.Conf.Calls

namespace Capwap

/-! ## 1. The lexer over the calls of a text

A call that ends with a code is followed by another one, which starts afresh; an error ends the
run. -/

/-- One byte, over the end of a call. -/
def Lexer.scan (s : Lexer) (ch : UInt8) : Option Lexer :=
  match s.read ch with
  | .next s' => some s'
  | .done ⟨.ok _, _⟩ => some .start
  | .done ⟨.error _, _⟩ => none

/-- Where the tokenizer stands after some bytes, from a given state on; `none` after an error. -/
def standFrom (s : Lexer) (text : List UInt8) : Option Lexer := text.foldlM Lexer.scan s

/-- Where the tokenizer stands after the first bytes of a file. -/
def standing (text : List UInt8) : Option Lexer := standFrom .start text

theorem standFrom_append (s : Lexer) (xs ys : List UInt8) :
    standFrom s (xs ++ ys) = (standFrom s xs).bind fun s' => standFrom s' ys :=
  List.foldlM_append

theorem standFrom_cons (s : Lexer) (c : UInt8) (ys : List UInt8) :
    standFrom s (c :: ys) = (s.scan c).bind fun s' => standFrom s' ys :=
  List.foldlM_cons

/-- Inside a call the lexer advances. -/
theorem standFrom_of_advance : ∀ {xs : List UInt8} {s s' : Lexer},
    Loop.advance (Lexer.step none) s xs = some s' → standFrom s xs = some s' := by
  intro xs
  induction xs with
  | nil =>
    intro s s' h
    exact h
  | cons c xs ih =>
    intro s s' h
    cases hs : s.step none c with
    | done o => simp [Loop.advance_done hs] at h
    | next t =>
      rw [Loop.advance_next hs] at h
      rw [Lexer.step_none] at hs
      rw [standFrom_cons, Lexer.scan, hs]
      exact ih h

/-- A run under a limit is a run without one that stays off the limit. -/
theorem advance_limit {limit : Option Nat} : ∀ {xs : List UInt8} {s s' : Lexer},
    Loop.advance (Lexer.step limit) s xs = some s' →
    Loop.advance (Lexer.step none) s xs = some s' := by
  intro xs
  induction xs with
  | nil =>
    intro s s' h
    exact h
  | cons c xs ih =>
    intro s s' h
    cases hs : s.step limit c with
    | done o => simp [Loop.advance_done hs] at h
    | next t =>
      rw [Loop.advance_next hs] at h
      rw [Lexer.step_off (Lexer.off_of_next hs), ← Lexer.step_none] at hs
      rw [Loop.advance_next hs]
      exact ih h

/-- `since` grows by a byte at a time. -/
theorem Lexer.scan_since {s s' : Lexer} {c : UInt8} (h : s.scan c = some s') :
    s'.since ≤ s.since + 1 := by
  unfold Lexer.scan at h
  split at h
  · rename_i t ht
    obtain rfl : t = s' := Option.some.inj h
    exact (Lexer.read_next ht).1
  · obtain rfl : Lexer.start = s' := Option.some.inj h
    exact Nat.zero_le _
  · exact absurd h (by simp)

/-! ## 2. Where the report is due

The report belongs to a place in the text, not to a state of the buffer: it is where an item has
gone on for `CW_CONF_BUFFER` bytes and does not end.  That refills happen elsewhere for other
reasons makes no difference. -/

/-- The place where the report is due: `CW_CONF_BUFFER` bytes into an item, with another byte
to come. -/
def Late (text : List UInt8) : Prop :=
  ∃ pre c post s, text = pre ++ c :: post ∧ standing pre = some s ∧ s.since = confBuffer

/-- There is no such place in what a call takes without ending. -/
theorem not_late_of_advance {xs : List UInt8} {s' : Lexer}
    (h : Loop.advance (Lexer.step (some confBuffer)) .start xs = some s') :
    ∀ pre c post, xs = pre ++ c :: post → ∀ s, standing pre = some s → s.since ≠ confBuffer := by
  intro pre c post hxs s hs hsince
  subst hxs
  obtain ⟨t, ht, hrest⟩ := Loop.advance_split h
  have hst := standFrom_of_advance (advance_limit ht)
  obtain rfl : t = s := Option.some.inj (hst.symm.trans hs)
  rw [Loop.advance_done (Lexer.step_at (by rw [hsince]) c)] at hrest
  exact absurd hrest (by simp)

/-- A call that ends with a code leaves the rest of the text to the next call, and the report is
due in what is left or nowhere.  A call that ends with an error is the last one. -/
theorem late_append {pre : List UInt8} {c : UInt8} {rest : List UInt8} {s : Lexer}
    (ha : Loop.advance (Lexer.step (some confBuffer)) .start pre = some s)
    (hs : s.since ≠ confBuffer) {o : Lexeme} (hd : s.read c = .done o) :
    Late (pre ++ c :: rest) ↔ (∃ rc, o.rc = .ok rc) ∧ Late rest := by
  have hst : standFrom .start pre = some s := standFrom_of_advance (advance_limit ha)
  have hscan : ∀ t, s.scan c = some t → (∃ rc, o.rc = .ok rc) ∧ t = .start := by
    intro t ht
    unfold Lexer.scan at ht
    rw [hd] at ht
    obtain ⟨rc, ws⟩ := o
    cases rc <;> simp at ht ⊢
    exact ht.symm
  constructor
  · rintro ⟨p, d, q, t, heq, ht, hsince⟩
    rcases List.append_eq_append_iff.mp heq with ⟨as, rfl, hr⟩ | ⟨bs, rfl, hr⟩
    · -- the place lies behind the end of this call, or at it
      cases as with
      | nil =>
        rw [List.append_nil] at ht
        obtain rfl : s = t := Option.some.inj (hst.symm.trans ht)
        exact absurd hsince hs
      | cons a as =>
        simp only [List.cons_append, List.cons.injEq] at hr
        obtain ⟨rfl, rfl⟩ := hr
        rw [standing, standFrom_append, hst, Option.bind_some, standFrom_cons] at ht
        obtain ⟨t₀, ht₀, ht⟩ := Option.bind_eq_some_iff.mp ht
        obtain ⟨hok, rfl⟩ := hscan t₀ ht₀
        exact ⟨hok, as, d, q, t, rfl, ht, hsince⟩
    · cases bs with
      | nil =>
        rw [List.append_nil] at hst
        obtain rfl : s = t := Option.some.inj (hst.symm.trans ht)
        exact absurd hsince hs
      | cons b bs => exact absurd hsince (not_late_of_advance ha p b bs rfl t ht)
  · rintro ⟨⟨rc, hrc⟩, p, d, q, t, rfl, ht, hsince⟩
    refine ⟨pre ++ c :: p, d, q, t, by simp, ?_, hsince⟩
    have hsome : s.scan c = some .start := by
      obtain ⟨rc', ws⟩ := o
      obtain rfl : rc' = .ok rc := hrc
      simp [Lexer.scan, hd]
    rw [standing, standFrom_append, hst, Option.bind_some, standFrom_cons, hsome]
    exact ht

end Capwap
