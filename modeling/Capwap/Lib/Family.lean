/-
# A parent and its children

A parent takes steps of its own, and some of them make a child.  A child takes steps of its own
too, and never touches another member.  A history is any order of such steps that the surroundings
admit.

`Run.parent` and `Run.child` take a history apart again: what the parent is after it, it is after
its own steps alone, and a child is what its own steps make of it, from the moment the parent made
it.  So a fact about any order of the steps is a fact about one member at a time.  Where the members
share something, `Run.links` is the rule: a relation between the parent and each of its children.
-/
import Mathlib.Data.List.Basic

/-- A parent, and the children in the order they were made. -/
structure Family (γ μ : Type) where
  parent : γ
  children : List μ

namespace Family

/-- A step of the parent, or of child `k`. -/
inductive Move (ι κ : Type)
  | parent (x : ι)
  | child (k : Nat) (y : κ)

/-- What one step of a member does, and the child the parent's step makes, if any. -/
structure Laws (γ μ ι κ : Type) where
  parent : γ → ι → Option (γ × Option μ)
  child : μ → κ → Option μ

variable {γ μ ι κ : Type}

namespace Laws

variable (L : Laws γ μ ι κ)

/-- One step in a family. -/
def step (f : Family γ μ) : Move ι κ → Option (Family γ μ)
  | .parent x => (L.parent f.parent x).map fun r => ⟨r.1, f.children ++ r.2.toList⟩
  | .child k y => do
    let c ← f.children[k]?
    let c ← L.child c y
    some { f with children := f.children.set k c }

/-- The histories of a family that starts with the parent alone. -/
inductive Run (Admits : Family γ μ → Move ι κ → Prop) (p₀ : γ) :
    List (Move ι κ) → Family γ μ → Prop
  | start : Run Admits p₀ [] ⟨p₀, []⟩
  | step {ms : List (Move ι κ)} {f f' : Family γ μ} {m : Move ι κ} :
      Run Admits p₀ ms f → Admits f m → L.step f m = some f' → Run Admits p₀ (ms ++ [m]) f'

/-- The parent's steps on their own, with the children they make. -/
def parentRun : γ → List ι → Option (γ × List μ)
  | p, [] => some (p, [])
  | p, x :: xs => do
    let (p, c) ← L.parent p x
    let (p, cs) ← parentRun p xs
    some (p, c.toList ++ cs)

/-- A child's steps on their own. -/
def childRun : μ → List κ → Option μ
  | c, [] => some c
  | c, y :: ys => (L.child c y).bind fun c => childRun c ys

end Laws

/-- The parent's part of a history. -/
def parentMoves : List (Move ι κ) → List ι
  | [] => []
  | .parent x :: ms => x :: parentMoves ms
  | .child _ _ :: ms => parentMoves ms

/-- The part of child `k`. -/
def childMoves (k : Nat) : List (Move ι κ) → List κ
  | [] => []
  | .parent _ :: ms => childMoves k ms
  | .child j y :: ms => if j = k then y :: childMoves k ms else childMoves k ms

/-! ## 1. Steps on their own

A history mixes the steps of all members.  `parentMoves` and `childMoves` take one member's part
out of it, in order, and `parentRun` and `childRun` run such a part by itself.  The rules at the
end are for invariants that mention the steps taken so far, since what a member is often depends on
what it has been through. -/

theorem parentMoves_append (ms ms' : List (Move ι κ)) :
    parentMoves (ms ++ ms') = parentMoves ms ++ parentMoves ms' := by
  induction ms with
  | nil => rfl
  | cons m ms ih =>
    cases m with
    | parent x => exact congrArg (x :: ·) ih
    | child j y => exact ih

theorem childMoves_append (k : Nat) (ms ms' : List (Move ι κ)) :
    childMoves k (ms ++ ms') = childMoves k ms ++ childMoves k ms' := by
  induction ms with
  | nil => rfl
  | cons m ms ih =>
    cases m with
    | parent x => exact ih
    | child j y =>
      simp only [List.cons_append, childMoves]
      split
      · exact congrArg (y :: ·) ih
      · exact ih

namespace Laws

variable {L : Laws γ μ ι κ}

theorem childRun_append (c : μ) (ys ys' : List κ) :
    L.childRun c (ys ++ ys') = (L.childRun c ys).bind fun c => L.childRun c ys' := by
  induction ys generalizing c with
  | nil => rfl
  | cons y ys ih =>
    simp only [List.cons_append, childRun]
    cases L.child c y with
    | none => rfl
    | some c' => exact ih c'

theorem parentRun_append {p p' p'' : γ} {xs xs' : List ι} {cs cs' : List μ}
    (h : L.parentRun p xs = some (p', cs)) (h' : L.parentRun p' xs' = some (p'', cs')) :
    L.parentRun p (xs ++ xs') = some (p'', cs ++ cs') := by
  induction xs generalizing p cs with
  | nil =>
    obtain ⟨rfl, rfl⟩ := Prod.mk.inj (Option.some.inj h)
    exact h'
  | cons x xs ih =>
    simp only [parentRun, Option.bind_eq_bind, Option.bind_eq_some_iff] at h
    obtain ⟨⟨q, c⟩, hq, ⟨q', ds⟩, hrun, heq⟩ := h
    obtain ⟨rfl, rfl⟩ := Prod.mk.inj (Option.some.inj heq)
    simp only [List.cons_append, parentRun, hq, ih hrun, Option.bind_eq_bind, Option.bind_some,
      List.append_assoc]

/-- What every step of a child keeps, given the steps before it, its run keeps. -/
theorem childRun_history {I : List κ → μ → Prop}
    (hstep : ∀ ys c y c', I ys c → L.child c y = some c' → I (ys ++ [y]) c') :
    ∀ {ys' ys : List κ} {c c' : μ}, I ys c → L.childRun c ys' = some c' → I (ys ++ ys') c' := by
  intro ys'
  induction ys' with
  | nil =>
    intro ys c c' hc h
    obtain rfl := Option.some.inj h
    rwa [List.append_nil]
  | cons y ys' ih =>
    intro ys c c' hc h
    obtain ⟨d, hd, hrun⟩ := Option.bind_eq_some_iff.mp h
    rw [List.append_cons]
    exact ih (hstep ys c y d hc hd) hrun

theorem childRun_from {I : List κ → μ → Prop} {c c' : μ} {ys : List κ} (hstart : I [] c)
    (hstep : ∀ ys c y c', I ys c → L.child c y = some c' → I (ys ++ [y]) c')
    (h : L.childRun c ys = some c') : I ys c' := childRun_history hstep hstart h

/-- What every step of the parent keeps, given the steps before it, its run keeps. -/
theorem parentRun_history {I : List ι → γ → Prop}
    (hstep : ∀ xs p x p' made, I xs p → L.parent p x = some (p', made) → I (xs ++ [x]) p') :
    ∀ {xs' xs : List ι} {p p' : γ} {cs : List μ}, I xs p → L.parentRun p xs' = some (p', cs) →
      I (xs ++ xs') p' := by
  intro xs'
  induction xs' with
  | nil =>
    intro xs p p' cs hp h
    obtain ⟨rfl, -⟩ := Prod.mk.inj (Option.some.inj h)
    rwa [List.append_nil]
  | cons x xs' ih =>
    intro xs p p' cs hp h
    simp only [parentRun, Option.bind_eq_bind, Option.bind_eq_some_iff] at h
    obtain ⟨⟨q, c⟩, hq, ⟨q', ds⟩, hrun, heq⟩ := h
    obtain ⟨rfl, -⟩ := Prod.mk.inj (Option.some.inj heq)
    rw [List.append_cons]
    exact ih (hstep xs p x q c hp hq) hrun

/-! ## 2. A step in a family

How the list of children changes: a step of the parent adds one at the end or none, and a step of
child `k` replaces the one at place `k`.  A child keeps its place for good, so `k` is its name. -/

theorem step_parent {f f' : Family γ μ} {x : ι} (h : L.step f (.parent x) = some f') :
    ∃ p made, L.parent f.parent x = some (p, made) ∧
      f' = ⟨p, f.children ++ made.toList⟩ := by
  obtain ⟨⟨p, made⟩, hp, rfl⟩ := Option.map_eq_some_iff.mp h
  exact ⟨p, made, hp, rfl⟩

theorem step_child {f f' : Family γ μ} {k : Nat} {y : κ} (h : L.step f (.child k y) = some f') :
    ∃ c c', f.children[k]? = some c ∧ L.child c y = some c' ∧
      f' = ⟨f.parent, f.children.set k c'⟩ := by
  obtain ⟨c, hc, h⟩ := Option.bind_eq_some_iff.mp h
  obtain ⟨c', hc', h⟩ := Option.bind_eq_some_iff.mp h
  exact ⟨c, c', hc, hc', (Option.some.inj h).symm⟩

/-- A child after a step of the parent was there before, or has just been made. -/
theorem getElem?_made {cs : List μ} {made : Option μ} {k : Nat} {c : μ}
    (h : (cs ++ made.toList)[k]? = some c) :
    cs[k]? = some c ∨ (k = cs.length ∧ made = some c) := by
  rcases Nat.lt_or_ge k cs.length with hk | hk
  · rw [List.getElem?_append_left hk] at h
    exact Or.inl h
  · rw [List.getElem?_append_right hk] at h
    cases made with
    | none => simp at h
    | some d =>
      obtain ⟨hlt, heq⟩ := List.getElem?_eq_some_iff.mp h
      simp only [Option.toList_some, List.length_singleton] at hlt
      obtain rfl : k = cs.length := by omega
      simp at heq
      exact Or.inr ⟨rfl, congrArg some heq⟩

/-- A child after a step of child `k` is as it was, or is child `k` after its step. -/
theorem getElem?_stepped {cs : List μ} {k j : Nat} {c' d : μ} (h : (cs.set k c')[j]? = some d) :
    (j = k ∧ d = c') ∨ (j ≠ k ∧ cs[j]? = some d) := by
  by_cases hj : j = k
  · subst hj
    obtain ⟨hlt, heq⟩ := List.getElem?_eq_some_iff.mp h
    rw [List.getElem_set_self] at heq
    exact Or.inl ⟨rfl, heq.symm⟩
  · rw [List.getElem?_set_ne (Ne.symm hj)] at h
    exact Or.inr ⟨hj, h⟩

variable {Admits : Family γ μ → Move ι κ → Prop} {p₀ : γ} {ms : List (Move ι κ)} {f : Family γ μ}

/-! ## 3. A history taken apart

The two projections.  Neither is obvious from the definition of a run, because a child's beginning
depends on the state the parent was in at that moment, which again depends on all of the parent's
steps before it.  Both are by induction on the history, with its last step looked at. -/

/-- The parent after a history: its own steps, run alone, lead there, and they made as many
children as there are. -/
theorem Run.parent (h : L.Run Admits p₀ ms f) :
    ∃ made, L.parentRun p₀ (parentMoves ms) = some (f.parent, made) ∧
      made.length = f.children.length := by
  induction h with
  | start => exact ⟨[], rfl, rfl⟩
  | @step ms f f' m _ _ hstep ih =>
    obtain ⟨made, hrun, hlength⟩ := ih
    rw [parentMoves_append]
    cases m with
    | parent x =>
      obtain ⟨p, c, hp, rfl⟩ := step_parent hstep
      have hone : L.parentRun f.parent [x] = some (p, c.toList ++ []) := by
        simp only [parentRun, hp, Option.bind_eq_bind, Option.bind_some]
      refine ⟨_, parentRun_append hrun hone, ?_⟩
      rw [List.append_nil, List.length_append, List.length_append, hlength]
    | child k y =>
      obtain ⟨c, c', -, -, rfl⟩ := step_child hstep
      refine ⟨made, ?_, ?_⟩
      · simpa only [parentMoves, List.append_nil] using hrun
      · rw [hlength, List.length_set]

/-- What every step of the parent keeps, given the steps before it, holds after a history, whatever
the children do in between. -/
theorem Run.parent_history {I : List ι → γ → Prop} (hstart : I [] p₀)
    (hstep : ∀ xs p x p' made, I xs p → L.parent p x = some (p', made) → I (xs ++ [x]) p')
    (h : L.Run Admits p₀ ms f) :
    I (parentMoves ms) f.parent := by
  obtain ⟨made, hrun, -⟩ := h.parent
  exact parentRun_history hstep hstart hrun

/-- A child that is not there has taken no step. -/
theorem Run.unborn (h : L.Run Admits p₀ ms f) {k : Nat} (hk : f.children.length ≤ k) :
    childMoves k ms = [] := by
  induction h with
  | start => rfl
  | @step ms f f' m _ _ hstep ih =>
    rw [childMoves_append]
    cases m with
    | parent x =>
      obtain ⟨p, c, -, rfl⟩ := step_parent hstep
      rw [List.length_append] at hk
      rw [ih (by omega)]
      rfl
    | child j y =>
      obtain ⟨c, c', hc, -, rfl⟩ := step_child hstep
      rw [List.length_set] at hk
      have hj : j < f.children.length := (List.getElem?_eq_some_iff.mp hc).1
      rw [ih hk]
      simp only [List.nil_append, childMoves]
      rw [if_neg (by omega)]

/-- A child after a history: the parent made it in the state it had then, and its own steps, all of
them later, made it what it is. -/
theorem Run.child (h : L.Run Admits p₀ ms f) {k : Nat} {c : μ} (hc : f.children[k]? = some c) :
    ∃ ms₁ x ms₂ f₁ p c₀, ms = ms₁ ++ .parent x :: ms₂ ∧ L.Run Admits p₀ ms₁ f₁ ∧
      f₁.children.length = k ∧ Admits f₁ (.parent x) ∧
      L.parent f₁.parent x = some (p, some c₀) ∧ childMoves k ms = childMoves k ms₂ ∧
      L.childRun c₀ (childMoves k ms₂) = some c := by
  induction h generalizing c with
  | start => simp at hc
  | @step ms f f' m hrun hadmits hstep ih =>
    cases m with
    | parent x =>
      obtain ⟨p, made, hp, rfl⟩ := step_parent hstep
      rcases getElem?_made hc with hold | ⟨rfl, rfl⟩
      · obtain ⟨ms₁, x', ms₂, f₁, p', c₀, rfl, hrun₁, hk, hadm, hmade, hmoves, hown⟩ := ih hold
        refine ⟨ms₁, x', ms₂ ++ [.parent x], f₁, p', c₀, ?_, hrun₁, hk, hadm, hmade, ?_, ?_⟩
        · rw [List.append_assoc, List.cons_append]
        · rw [childMoves_append, hmoves, childMoves_append]
        · rw [childMoves_append]
          simpa only [childMoves, List.append_nil] using hown
      · refine ⟨ms, x, [], f, p, c, rfl, hrun, rfl, hadmits, hp, ?_, rfl⟩
        rw [childMoves_append, hrun.unborn (Nat.le_refl _)]
        rfl
    | child j y =>
      obtain ⟨d, d', hd, hd', rfl⟩ := step_child hstep
      rcases getElem?_stepped hc with ⟨rfl, rfl⟩ | ⟨hne, hold⟩
      · obtain ⟨ms₁, x', ms₂, f₁, p', c₀, rfl, hrun₁, hk, hadm, hmade, hmoves, hown⟩ := ih hd
        refine ⟨ms₁, x', ms₂ ++ [.child k y], f₁, p', c₀, ?_, hrun₁, hk, hadm, hmade, ?_, ?_⟩
        · rw [List.append_assoc, List.cons_append]
        · rw [childMoves_append, hmoves, childMoves_append]
        · rw [childMoves_append, childRun_append, hown, Option.bind_some]
          simp only [childMoves, if_true, childRun, hd', Option.bind_some]
      · obtain ⟨ms₁, x', ms₂, f₁, p', c₀, rfl, hrun₁, hk, hadm, hmade, hmoves, hown⟩ := ih hold
        have hnone : childMoves k [(Move.child j y : Move ι κ)] = [] := by
          simp only [childMoves]
          rw [if_neg (Ne.symm hne)]
        refine ⟨ms₁, x', ms₂ ++ [.child j y], f₁, p', c₀, ?_, hrun₁, hk, hadm, hmade, ?_, ?_⟩
        · rw [List.append_assoc, List.cons_append]
        · rw [childMoves_append, hmoves, childMoves_append]
        · rw [childMoves_append, hnone, List.append_nil]
          exact hown

/-! ## 4. What ties the members together

A family whose members share nothing is done with after section 3.  Where the parent keeps a record
of its children, or hands something down to each, the invariant is a relation between the parent
and each child by its place. -/

/-- A parent that satisfies `I`, given the number of its children, and is related to each. -/
structure Linked (I : γ → Nat → Prop) (R : γ → Nat → μ → Prop) (f : Family γ μ) : Prop where
  parent : I f.parent f.children.length
  children : ∀ k c, f.children[k]? = some c → R f.parent k c

/-- A relation that the parent's steps keep for all its children, old and new, and that a child's
steps keep for that child, holds throughout.  The obligation for the parent is given the relation
for all children at once, since one step of the parent may change what it keeps of each. -/
theorem Run.links {I : γ → Nat → Prop} {R : γ → Nat → μ → Prop} (hstart : I p₀ 0)
    (hparent : ∀ f x p made, Linked I R f → Admits f (.parent x) →
      L.parent f.parent x = some (p, made) →
      I p (f.children ++ made.toList).length ∧ (∀ k c, f.children[k]? = some c → R p k c) ∧
        ∀ c, made = some c → R p f.children.length c)
    (hchild : ∀ p k c y c', R p k c → L.child c y = some c' → R p k c')
    (h : L.Run Admits p₀ ms f) : Linked I R f := by
  induction h with
  | start => exact ⟨hstart, by simp⟩
  | @step ms f f' m _ hadmits hstep ih =>
    cases m with
    | parent x =>
      obtain ⟨p, made, hp, rfl⟩ := step_parent hstep
      obtain ⟨hI, hold, hnew⟩ := hparent f x p made ih hadmits hp
      refine ⟨hI, fun k c hc => ?_⟩
      rcases getElem?_made hc with hc | ⟨rfl, hmade⟩
      · exact hold k c hc
      · exact hnew c hmade
    | child k y =>
      obtain ⟨c, c', hc, hc', rfl⟩ := step_child hstep
      refine ⟨?_, fun j d hd => ?_⟩
      · show I f.parent (f.children.set k c').length
        rw [List.length_set]
        exact ih.parent
      · rcases getElem?_stepped hd with ⟨rfl, rfl⟩ | ⟨-, hd⟩
        · exact hchild _ _ _ _ _ (ih.children _ _ hc) hc'
        · exact ih.children _ _ hd

end Laws

end Family
