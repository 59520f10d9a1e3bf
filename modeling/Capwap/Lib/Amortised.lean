/-
# Amortised costs

A step may be dear although most are cheap.  What a long run costs is then found with a potential:
if every step's cost, and what it adds to the potential, is covered by what the step is charged
(`Covers`), then so is a whole run's (`Covers.total_le`), and what is left of the potential at the
end comes off as well.

The rule holds under an invariant of the states and for the steps that a caller may take.  Section 2
has the potential that is summed over the members of a list, one of which a step changes.
-/
import Mathlib.Data.List.Basic

namespace Amortised

variable {σ α : Type}

/-! ## 1. Steps and runs

A run is a list of calls from a state on.  `total` adds up a number that may depend on the state a
call is made in, as a cost does; `Allowed` says that every call is one its caller may make
there. -/

/-- The state after a run. -/
def after (next : σ → α → σ) (s : σ) (as : List α) : σ := as.foldl next s

/-- A number of each step, added up along a run. -/
def total (next : σ → α → σ) (f : σ → α → Nat) : σ → List α → Nat
  | _, [] => 0
  | s, a :: as => f s a + total next f (next s a) as

/-- A run each of whose steps may be taken where it is. -/
def Allowed (next : σ → α → σ) (admits : σ → α → Prop) : σ → List α → Prop
  | _, [] => True
  | s, a :: as => admits s a ∧ Allowed next admits (next s a) as

/-- The charges cover the costs and what the potential rises by, and the invariant stays.
Potentials are natural numbers, so none is ever negative and no run can end in debt. -/
structure Covers (next : σ → α → σ) (admits : σ → α → Prop) (inv : σ → Prop)
    (cost charge : σ → α → Nat) (potential : σ → Nat) : Prop where
  keeps : ∀ s a, inv s → admits s a → inv (next s a)
  covers : ∀ s a, inv s → admits s a → cost s a + potential (next s a) ≤ charge s a + potential s

/-- **A run costs at most what it is charged**, and the potential it starts with. -/
theorem Covers.total_le {next : σ → α → σ} {admits : σ → α → Prop} {inv : σ → Prop}
    {cost charge : σ → α → Nat} {potential : σ → Nat}
    (hC : Covers next admits inv cost charge potential) :
    ∀ {as : List α} {s : σ}, inv s → Allowed next admits s as →
      total next cost s as + potential (after next s as) ≤ total next charge s as + potential s
  | [], s, _, _ => by
    simp only [total, after, List.foldl_nil]
    exact Nat.le_refl _
  | a :: as, s, hs, ⟨ha, hrest⟩ => by
    have hone := hC.covers s a hs ha
    have hrun := hC.total_le (hC.keeps s a hs ha) hrest
    simp only [total, after, List.foldl_cons] at hrun ⊢
    omega

/-- Two numbers of the steps added up together. -/
theorem total_add (next : σ → α → σ) (f g : σ → α → Nat) : ∀ (as : List α) (s : σ),
    total next (fun s a => f s a + g s a) s as = total next f s as + total next g s as
  | [], _ => rfl
  | a :: as, s => by
    simp only [total, total_add next f g as]
    omega

theorem total_mul (next : σ → α → σ) (k : Nat) (f : σ → α → Nat) : ∀ (as : List α) (s : σ),
    total next (fun s a => k * f s a) s as = k * total next f s as
  | [], _ => rfl
  | a :: as, s => by simp only [total, total_mul next k f as, Nat.mul_add]

/-! ## 2. A potential over the members of a list

The state has several members of one kind, each with its own potential, and a step changes one of
them.  What the others hold is the same on both sides of the inequality and cancels, which is what
`sumOver_split` is for. -/

/-- The sum over the members. -/
def sumOver (f : α → Nat) : List α → Nat
  | [] => 0
  | a :: l => f a + sumOver f l

@[simp] theorem sumOver_nil (f : α → Nat) : sumOver f [] = 0 := rfl

@[simp] theorem sumOver_cons (f : α → Nat) (a : α) (l : List α) :
    sumOver f (a :: l) = f a + sumOver f l := rfl

/-- The sum with one member taken out. -/
theorem sumOver_split (f : α → Nat) (a : α) (T : List α) :
    ∀ L : List α, sumOver f (L ++ a :: T) = f a + sumOver f (L ++ T)
  | [] => rfl
  | b :: L => by
    simp only [List.cons_append, sumOver_cons, sumOver_split f a T L]
    omega

end Amortised
