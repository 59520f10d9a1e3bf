/-
# `cw_atoi` in any word size

`cw_atoi` checks `value` against `cutoff` and `cutlim` before it multiplies, so that no value the
loop computes exceeds `CW_MAX_INT_T_VALUE`.  That limit is one of 32 bits, and `cw_int_t` is
`intptr_t`; `cwAtoiBits` is the function with an integer type of any number of bits, which wraps
around.  With 32 bits or more it computes the same (`cwAtoi_spec`).
-/
import Capwap.Conf.Core

namespace Capwap

/-! ## 1. The values of the loop

A `cw_int_t` is wider than the limit, so with the types as they are nothing can overflow.  The
question is what an integer of fewer bits would do, and the answer is in the guard before each
multiplication, `value >= cutoff && (value > cutoff || *line - '0' > cutlim)`: the next value is
within the limit too. -/

/-- The values that `value * 10 + (*line - '0')` takes in the loop, in order. -/
def atoiValues (cutoff cutlim : Int) : Nat → List UInt8 → Int → List Int
  | 0, _, _ => []
  | n + 1, line, value =>
    let c : Int := (line.headD 0).toNat
    if c < 48 ∨ c > 57 then []
    else if value ≥ cutoff ∧ (value > cutoff ∨ c - 48 > cutlim) then []
    else (value * 10 + (c - 48)) :: atoiValues cutoff cutlim n line.tail (value * 10 + (c - 48))

/-- The loop with integers of so many bits. -/
def atoiLoopBits (bits : Nat) (cutoff cutlim : Int) : Nat → List UInt8 → Int → Int
  | 0, _, value => value
  | n + 1, line, value =>
    let c : Int := (line.headD 0).toNat
    if c < 48 ∨ c > 57 then cwError
    else if value ≥ cutoff ∧ (value > cutoff ∨ c - 48 > cutlim) then cwError
    else atoiLoopBits bits cutoff cutlim n line.tail
      (((value * 10).bmod (2 ^ bits) + (c - 48)).bmod (2 ^ bits))

/-- `cw_atoi` with a `cw_int_t` of so many bits. -/
def cwAtoiBits (bits : Nat) (line : List UInt8) (n : Nat) : Int :=
  if n = 0 then cwError else atoiLoopBits bits (maxIntTValue / 10) (maxIntTValue % 10) n line 0

/-- What is computed in one round: the cut-off keeps it within the limit. -/
theorem atoi_round {value c : Int} (h₀ : 0 ≤ value) (hc : ¬ (c < 48 ∨ c > 57))
    (hcut : ¬ (value ≥ maxIntTValue / 10 ∧
      (value > maxIntTValue / 10 ∨ c - 48 > maxIntTValue % 10))) :
    0 ≤ value * 10 + (c - 48) ∧ value * 10 + (c - 48) ≤ maxIntTValue := by
  have hdiv : maxIntTValue / 10 = 214748364 := by decide
  have hmod : maxIntTValue % 10 = 7 := by decide
  have hmax : maxIntTValue = 2147483647 := rfl
  rw [hdiv, hmod] at hcut
  omega

/-- The induction is on the bytes to go; `value` is never negative. -/
theorem atoiValues_le : ∀ (n : Nat) (line : List UInt8) (value : Int), 0 ≤ value →
    ∀ v ∈ atoiValues (maxIntTValue / 10) (maxIntTValue % 10) n line value,
      0 ≤ v ∧ v ≤ maxIntTValue := by
  intro n
  induction n with
  | zero =>
    intro line value _ v hv
    simp [atoiValues] at hv
  | succ n ih =>
    intro line value h₀ v hv
    simp only [atoiValues] at hv
    split at hv
    · simp at hv
    · rename_i hc
      split at hv
      · simp at hv
      · rename_i hcut
        have hround := atoi_round h₀ hc hcut
        rcases List.mem_cons.mp hv with rfl | hv
        · exact hround
        · exact ih _ _ hround.1 v hv

/-- A value in the range of 32 bits is itself in any larger size. -/
theorem bmod_of_le {v : Int} (k : Nat) (h₀ : 0 ≤ v) (h : v ≤ maxIntTValue) :
    v.bmod (2 ^ (32 + k)) = v := by
  have hmax : maxIntTValue = 2147483647 := rfl
  have hpow : (2 : Nat) ^ (32 + k) = 4294967296 * 2 ^ k := by rw [Nat.pow_add]
  have hle : 4294967296 ≤ (2 : Nat) ^ (32 + k) := by
    rw [hpow]
    exact Nat.le_mul_of_pos_right _ (Nat.two_pow_pos k)
  apply Int.bmod_eq_of_le <;> omega

/-- As long as nothing exceeds the limit, nothing wraps around.  The induction is on the bytes to
go. -/
theorem atoiLoopBits_eq (k : Nat) : ∀ (n : Nat) (line : List UInt8) (value : Int), 0 ≤ value →
    atoiLoopBits (32 + k) (maxIntTValue / 10) (maxIntTValue % 10) n line value
      = atoiLoop (maxIntTValue / 10) (maxIntTValue % 10) n line value := by
  intro n
  induction n with
  | zero =>
    intro line value _
    rfl
  | succ n ih =>
    intro line value h₀
    simp only [atoiLoopBits, atoiLoop]
    split
    · rfl
    · rename_i hc
      split
      · rfl
      · rename_i hcut
        obtain ⟨hnn, hle⟩ := atoi_round h₀ hc hcut
        rw [bmod_of_le k (v := value * 10) (by omega) (by omega), bmod_of_le k hnn hle]
        exact ih _ _ hnn

/-! ## 2. The function -/

/-- **For a string, whatever stands behind it**, `cw_atoi` returns the value just when the string
is not empty, has digits only, and the value is within the limit, and `CW_ERROR` otherwise.
Nothing it computes exceeds the limit, so it does the same with any 32 bits or more. -/
theorem cwAtoi_spec (line rest : List UInt8) :
    (cwAtoi (line ++ rest) line.length
      = if 0 < line.length ∧ (∀ c ∈ line, isDigit c = true) ∧ (decimal line : Int) ≤ maxIntTValue
        then (decimal line : Int) else cwError) ∧
    (cwAtoi (line ++ rest) line.length = decimal line ↔ 0 < line.length ∧
      (∀ c ∈ line, isDigit c = true) ∧ (decimal line : Int) ≤ maxIntTValue) ∧
    (cwAtoi (line ++ rest) line.length = cwError ↔ ¬ (0 < line.length ∧
      (∀ c ∈ line, isDigit c = true) ∧ (decimal line : Int) ≤ maxIntTValue)) ∧
    (∀ v ∈ atoiValues (maxIntTValue / 10) (maxIntTValue % 10) line.length (line ++ rest) 0,
      v ≤ maxIntTValue) ∧
    (∀ k, cwAtoiBits (32 + k) (line ++ rest) line.length
      = cwAtoi (line ++ rest) line.length) := by
  have hmax : maxIntTValue = 2147483647 := rfl
  have hvalue := cwAtoi_eq line rest
  have hcond : (line ≠ [] ∧ (∀ c ∈ line, isDigit c = true) ∧ decimal line ≤ 2147483647) ↔
      0 < line.length ∧ (∀ c ∈ line, isDigit c = true) ∧ (decimal line : Int) ≤ maxIntTValue := by
    rw [List.length_pos_iff, hmax]
    refine and_congr_right fun _ => and_congr_right fun _ => ?_
    omega
  simp only [hcond] at hvalue
  have hne : (decimal line : Int) ≠ cwError := by
    have herr : cwError = -1 := rfl
    omega
  refine ⟨hvalue, ?_, ?_, ?_, ?_⟩
  · rw [hvalue]
    constructor
    · intro h
      by_contra hnot
      rw [if_neg hnot] at h
      exact hne h.symm
    · intro h
      rw [if_pos h]
  · rw [hvalue]
    constructor
    · intro h hcond'
      rw [if_pos hcond'] at h
      exact hne h
    · intro h
      rw [if_neg h]
  · intro v hv
    exact (atoiValues_le _ _ 0 (Int.le_refl 0) v hv).2
  · intro k
    unfold cwAtoiBits cwAtoi
    rw [atoiLoopBits_eq k _ _ 0 (Int.le_refl 0)]

end Capwap
