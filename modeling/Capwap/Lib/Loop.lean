/-
# Loops with early exits, and machines that read a stream

A C loop `for ( ;; )` with returns in the middle is a function from a state to a `Step`: either
go round again or be done.  `run` iterates it under a bound on the number of rounds, and
section 1 has the rules that make the bound harmless: a larger bound changes nothing, an
invariant of the step is an invariant of the run, and a measure that falls gives a bound that
suffices.

A machine that reads one item of a stream per round is a function `σ → ι → Step σ ο` with a
result for the end of the stream.  `feed` runs it on a list and returns what is left of the
list.  Section 2 has its composition laws, and section 3 the refinement rule between the two:
a loop that takes one item per round out of some store, in lockstep with a stream machine,
computes what the stream machine computes on the items in the store.
-/
import Mathlib.Data.List.Basic
import Mathlib.Logic.Relation

/-- One round of a loop: go round again, or be done. -/
inductive Step (α β : Type)
  | next (a : α)
  | done (b : β)

namespace Loop

variable {α β σ ο ι : Type}

/-! ## 1. Bounded runs

`run` has a bound because Lean asks for one; the C loop has none.  The rules here make the
difference disappear: a result does not depend on the bound that produced it (`run_mono`,
`Ends.unique`), and where a measure falls there is a bound that suffices (`run_measure`), so a
theorem may say that the loop ends and with what, and not just what holds if it does. -/

/-- At most `n` rounds.  `none` means that the bound was too small, and nothing else. -/
def run (step : α → Step α β) : Nat → α → Option β
  | 0, _ => none
  | n + 1, a =>
    match step a with
    | .next a' => run step n a'
    | .done b => some b

theorem run_next {step : α → Step α β} {a a' : α} (h : step a = .next a') (n : Nat) :
    run step (n + 1) a = run step n a' := by
  simp only [run, h]

theorem run_done {step : α → Step α β} {a : α} {b : β} (h : step a = .done b) (n : Nat) :
    run step (n + 1) a = some b := by
  simp only [run, h]

/-- A finished run stays as it is under a larger bound. -/
theorem run_mono {step : α → Step α β} : ∀ {n m : Nat} {a : α} {b : β},
    run step n a = some b → n ≤ m → run step m a = some b := by
  intro n
  induction n with
  | zero =>
    intro m a b h hle
    simp [run] at h
  | succ n ih =>
    intro m a b h hle
    obtain ⟨m, rfl⟩ : ∃ k, m = k + 1 := ⟨m - 1, by omega⟩
    cases hs : step a with
    | done b' =>
      rw [run_done hs] at h ⊢
      exact h
    | next a' =>
      rw [run_next hs] at h ⊢
      exact ih h (by omega)

/-- What every round preserves holds when the run is done.  The last round may establish something
else, `P`, about the result. -/
theorem run_invariant {step : α → Step α β} {I : α → Prop} {P : β → Prop}
    (hnext : ∀ a a', I a → step a = .next a' → I a') (hdone : ∀ a b, I a → step a = .done b → P b) :
    ∀ {n : Nat} {a : α} {b : β}, I a → run step n a = some b → P b := by
  intro n
  induction n with
  | zero =>
    intro a b hI h
    simp [run] at h
  | succ n ih =>
    intro a b hI h
    cases hs : step a with
    | done b' =>
      rw [run_done hs, Option.some.injEq] at h
      exact h ▸ hdone a b' hI hs
    | next a' =>
      rw [run_next hs] at h
      exact ih (hnext a a' hI hs) h

/-- A measure that every round lowers bounds the rounds.  The invariant `I` is there for loops
whose measure only falls in the states they reach. -/
theorem run_measure {step : α → Step α β} {I : α → Prop} {μ : α → Nat}
    (hnext : ∀ a a', I a → step a = .next a' → I a' ∧ μ a' < μ a) :
    ∀ {n : Nat} {a : α}, I a → μ a < n → ∃ b, run step n a = some b := by
  intro n
  induction n with
  | zero =>
    intro a hI hn
    omega
  | succ n ih =>
    intro a hI hn
    cases hs : step a with
    | done b => exact ⟨b, run_done hs n⟩
    | next a' =>
      obtain ⟨hI', hlt⟩ := hnext a a' hI hs
      rw [run_next hs]
      exact ih hI' (by omega)

/-- Two loops that make the same rounds, unless the first ends with `P`.  It is for comparing a
loop with one that is spared some failures: until a failure shows they are the same loop. -/
theorem run_unless {step step' : α → Step α β} {I : α → Prop} {P : β → Prop}
    (hnext : ∀ a a', I a → step a = .next a' → I a')
    (heq : ∀ a, I a → step' a = step a ∨ ∃ b, step a = .done b ∧ P b) : ∀ {a : α}, I a →
      ∀ n, run step' n a = run step n a ∨ ∃ b, run step n a = some b ∧ P b := by
  intro a ha n
  induction n generalizing a with
  | zero => exact Or.inl rfl
  | succ n ih =>
    rcases heq a ha with hsame | ⟨b, hb, hP⟩
    · cases hs : step a with
      | done b => exact Or.inl (by rw [run_done hs, run_done (hsame.trans hs)])
      | next a' =>
        rw [run_next hs, run_next (hsame.trans hs)]
        exact ih (hnext a a' ha hs)
    · exact Or.inr ⟨b, run_done hb n, hP⟩

/-- Two steps have related outcomes. -/
inductive StepRel {α' β' : Type} (A : α → α' → Prop) (B : β → β' → Prop) :
    Step α β → Step α' β' → Prop
  | next {a : α} {a' : α'} (h : A a a') : StepRel A B (.next a) (.next a')
  | done {b : β} {b' : β'} (h : B b b') : StepRel A B (.done b) (.done b')

/-- Two loops that run in lockstep end with related results, or are cut off together.  The states
need not be of one type. -/
theorem run_rel {α' β' : Type} {A : α → α' → Prop} {B : β → β' → Prop} {step : α → Step α β}
    {step' : α' → Step α' β'} (h : ∀ a a', A a a' → StepRel A B (step a) (step' a')) :
    ∀ (n : Nat) {a : α} {a' : α'}, A a a' →
      (run step n a = none ∧ run step' n a' = none) ∨
        ∃ b b', run step n a = some b ∧ run step' n a' = some b' ∧ B b b' := by
  intro n
  induction n with
  | zero =>
    intro a a' _
    exact Or.inl ⟨rfl, rfl⟩
  | succ n ih =>
    intro a a' ha
    have hstep := h a a' ha
    generalize hs : step a = x at hstep
    generalize hs' : step' a' = x' at hstep
    cases hstep with
    | next hnext =>
      rw [run_next hs, run_next hs']
      exact ih hnext
    | done hdone => exact Or.inr ⟨_, _, run_done hs n, run_done hs' n, hdone⟩

/-- States between which the loop goes round, some times. -/
def Reaches (step : α → Step α β) : α → α → Prop :=
  Relation.ReflTransGen fun a a' => step a = .next a'

/-- What every round preserves holds wherever the loop gets to. -/
theorem Reaches.invariant {step : α → Step α β} {I : α → Prop}
    (hnext : ∀ a a', I a → step a = .next a' → I a') {a b : α} (h : Reaches step a b) (ha : I a) :
    I b := by
  induction h with
  | refl => exact ha
  | tail _ hs ih => exact hnext _ _ ih hs

/-- One more round at the front. -/
theorem Reaches.head {step : α → Step α β} {a a' b : α} (h : step a = .next a')
    (hrest : Reaches step a' b) : Reaches step a b := Relation.ReflTransGen.head h hrest

/-- The loop is done some time, with this result. -/
def Ends (step : α → Step α β) (a : α) (b : β) : Prop := ∃ n, run step n a = some b

theorem Ends.of_done {step : α → Step α β} {a : α} {b : β} (h : step a = .done b) :
    Ends step a b := ⟨1, run_done h 0⟩

theorem Reaches.ends {step : α → Step α β} {a a' : α} {b : β} (h : Reaches step a a')
    (hrest : Ends step a' b) : Ends step a b := by
  induction h using Relation.ReflTransGen.head_induction_on with
  | refl => exact hrest
  | head hs _ ih =>
    obtain ⟨n, hn⟩ := ih
    exact ⟨n + 1, (run_next hs n).trans hn⟩

/-- A loop has one result. -/
theorem Ends.unique {step : α → Step α β} {a : α} {b b' : β} (h : Ends step a b)
    (h' : Ends step a b') : b = b' := by
  obtain ⟨n, hn⟩ := h
  obtain ⟨m, hm⟩ := h'
  have hmax := run_mono hn (Nat.le_max_left n m)
  rw [run_mono hm (Nat.le_max_right n m)] at hmax
  exact (Option.some.inj hmax).symm

/-! ## 2. Stream machines

A machine does not choose how it is fed: it is given one item a round, and the list holds what is
still to come.  `feed` says how it ends; `advance` says where it stands after some items that do
not end it.  A run is described by cutting its list at the right place, `xs ++ c :: rest`, with
`advance` for the front, one step for `c`, and `rest` left over. -/

/-- Run a stream machine on a list: its result, and the items it did not take. -/
def feed (step : σ → ι → Step σ ο) (eof : σ → ο) : σ → List ι → ο × List ι
  | s, [] => (eof s, [])
  | s, c :: cs =>
    match step s c with
    | .next s' => feed step eof s' cs
    | .done o => (o, cs)

/-- The state after a list of items none of which ends the run. -/
def advance (step : σ → ι → Step σ ο) : σ → List ι → Option σ
  | s, [] => some s
  | s, c :: cs =>
    match step s c with
    | .next s' => advance step s' cs
    | .done _ => none

section
variable {step : σ → ι → Step σ ο} {eof : σ → ο}

@[simp] theorem feed_nil (s : σ) : feed step eof s [] = (eof s, []) := rfl

theorem feed_next {s s' : σ} {c : ι} (h : step s c = .next s') (cs : List ι) :
    feed step eof s (c :: cs) = feed step eof s' cs := by
  simp only [feed, h]

theorem feed_done {s : σ} {o : ο} {c : ι} (h : step s c = .done o) (cs : List ι) :
    feed step eof s (c :: cs) = (o, cs) := by
  simp only [feed, h]

@[simp] theorem advance_nil (s : σ) : advance step s [] = some s := rfl

theorem advance_next {s s' : σ} {c : ι} (h : step s c = .next s') (cs : List ι) :
    advance step s (c :: cs) = advance step s' cs := by
  simp only [advance, h]

theorem advance_done {s : σ} {o : ο} {c : ι} (h : step s c = .done o) (cs : List ι) :
    advance step s (c :: cs) = none := by
  simp only [advance, h]

theorem advance_append : ∀ {xs : List ι} {s s' : σ} (ys : List ι),
    advance step s xs = some s' → advance step s (xs ++ ys) = advance step s' ys := by
  intro xs
  induction xs with
  | nil =>
    intro s s' ys h
    obtain rfl : s = s' := by simpa using h
    rfl
  | cons c xs ih =>
    intro s s' ys h
    cases hs : step s c with
    | done o => simp [advance_done hs] at h
    | next t =>
      rw [advance_next hs] at h
      rw [List.cons_append, advance_next hs, ih ys h]

/-- A list that does not end the run may be cut anywhere. -/
theorem advance_split : ∀ {xs : List ι} {s s' : σ} {ys : List ι},
    advance step s (xs ++ ys) = some s' →
    ∃ t, advance step s xs = some t ∧ advance step t ys = some s' := by
  intro xs
  induction xs with
  | nil =>
    intro s s' ys h
    exact ⟨s, rfl, h⟩
  | cons c xs ih =>
    intro s s' ys h
    rw [List.cons_append] at h
    cases hs : step s c with
    | done o => simp [advance_done hs] at h
    | next t =>
      rw [advance_next hs] at h
      rw [advance_next hs]
      exact ih h

/-- Items that do not end the run may be taken first. -/
theorem feed_advance : ∀ {xs : List ι} {s s' : σ} (ys : List ι),
    advance step s xs = some s' → feed step eof s (xs ++ ys) = feed step eof s' ys := by
  intro xs
  induction xs with
  | nil =>
    intro s s' ys h
    obtain rfl : s = s' := by simpa using h
    rfl
  | cons c xs ih =>
    intro s s' ys h
    cases hs : step s c with
    | done o => simp [advance_done hs] at h
    | next t =>
      rw [advance_next hs] at h
      rw [List.cons_append, feed_next hs, ih ys h]

/-- How a run ends: the stream is used up, or some item ends it.  In the second case the list is
cut at that item, which is how most proofs about a run begin. -/
theorem feed_cases (step : σ → ι → Step σ ο) (eof : σ → ο) : ∀ (xs : List ι) (s : σ),
    (∃ s', advance step s xs = some s' ∧ feed step eof s xs = (eof s', [])) ∨
    (∃ pre c rest s' o, xs = pre ++ c :: rest ∧ advance step s pre = some s' ∧
      step s' c = .done o ∧ feed step eof s xs = (o, rest)) := by
  intro xs
  induction xs with
  | nil =>
    intro s
    exact Or.inl ⟨s, rfl, rfl⟩
  | cons c xs ih =>
    intro s
    cases hs : step s c with
    | done o => exact Or.inr ⟨[], c, xs, s, o, rfl, rfl, hs, feed_done hs xs⟩
    | next t =>
      rcases ih t with ⟨s', ha, hf⟩ | ⟨pre, d, rest, s', o, rfl, ha, hd, hf⟩
      · exact Or.inl ⟨s', by rw [advance_next hs, ha], by rw [feed_next hs, hf]⟩
      · exact Or.inr ⟨c :: pre, d, rest, s', o, rfl, by rw [advance_next hs, ha], hd,
          by rw [feed_next hs, hf]⟩

/-- What is left is a tail of what was given. -/
theorem feed_suffix (s : σ) (xs : List ι) : (feed step eof s xs).2 <:+ xs := by
  rcases feed_cases step eof xs s with ⟨s', -, hf⟩ | ⟨pre, c, rest, s', o, rfl, -, -, hf⟩
  · rw [hf]
    exact List.nil_suffix
  · rw [hf]
    exact (List.suffix_cons c rest).trans (List.suffix_append pre _)

/-- What every item preserves holds of the state reached. -/
theorem advance_invariant {I : σ → Prop} (hnext : ∀ s s' c, I s → step s c = .next s' → I s') :
    ∀ {xs : List ι} {s s' : σ}, I s → advance step s xs = some s' → I s' := by
  intro xs
  induction xs with
  | nil =>
    intro s s' hI h
    obtain rfl : s = s' := by simpa using h
    exact hI
  | cons c xs ih =>
    intro s s' hI h
    cases hs : step s c with
    | done o => simp [advance_done hs] at h
    | next t =>
      rw [advance_next hs] at h
      exact ih (hnext s t c hI hs) h

end

/-! ## 3. A loop that refines a stream machine

The loop has a store of its own (a buffer that it refills, say) and the machine has none.  What the
two have in common is the list of items still to come; `R` says how the loop's state holds it.
Each obligation is about one round, and the induction is done here once. -/

/-- A loop takes one item a round, in lockstep with a stream machine: `R` relates the loop's
state to the machine's state and the items still to come, `Q` the two results and the items
left over. -/
structure Refines (step : α → Step α β) (spec : σ → ι → Step σ ο) (eof : σ → ο)
    (R : α → σ → List ι → Prop) (Q : β → ο → List ι → Prop) : Prop where
  /-- at the end of the stream the loop stops -/
  at_end : ∀ a s, R a s [] → ∃ b, step a = .done b ∧ Q b (eof s) []
  /-- an item that the machine goes on after -/
  at_next : ∀ a s s' c cs, R a s (c :: cs) → spec s c = .next s' →
    ∃ a', step a = .next a' ∧ R a' s' cs
  /-- an item that ends the run -/
  at_done : ∀ a s o c cs, R a s (c :: cs) → spec s c = .done o → ∃ b, step a = .done b ∧ Q b o cs

/-- A refining loop stops within one round more than there are items, with the machine's result.
This gives termination and correctness at a stroke: the items still to come are the measure, and
the round more is for the end of the stream. -/
theorem Refines.run {step : α → Step α β} {spec : σ → ι → Step σ ο} {eof : σ → ο}
    {R : α → σ → List ι → Prop} {Q : β → ο → List ι → Prop} (h : Refines step spec eof R Q) :
    ∀ {cs : List ι} {a : α} {s : σ} {n : Nat}, R a s cs → cs.length < n →
      ∃ b, Loop.run step n a = some b ∧ Q b (feed spec eof s cs).1 (feed spec eof s cs).2 := by
  intro cs
  induction cs with
  | nil =>
    intro a s n hR hn
    obtain ⟨n, rfl⟩ : ∃ k, n = k + 1 := ⟨n - 1, by omega⟩
    obtain ⟨b, hb, hQ⟩ := h.at_end a s hR
    exact ⟨b, run_done hb n, hQ⟩
  | cons c cs ih =>
    intro a s n hR hn
    obtain ⟨n, rfl⟩ : ∃ k, n = k + 1 := ⟨n - 1, by omega⟩
    cases hs : spec s c with
    | done o =>
      obtain ⟨b, hb, hQ⟩ := h.at_done a s o c cs hR hs
      rw [feed_done hs]
      exact ⟨b, run_done hb n, hQ⟩
    | next s' =>
      obtain ⟨a', ha, hR'⟩ := h.at_next a s s' c cs hR hs
      rw [feed_next hs, run_next ha]
      refine ih hR' ?_
      simp only [List.length_cons] at hn
      omega

end Loop
