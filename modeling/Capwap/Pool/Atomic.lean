/-
# A failed allocation leaves nothing behind

`cw_palloc_large` obtains memory before it looks for a place for its record, and that place may
need a block of its own: there are two requests to the system, and the second may fail after the
first has succeeded.  Each way to `NULL` is followed here.  Where the source gives back what it got,
the ledger of the heap says so; everything else is as it was before the call.

Nothing is assumed about the pool or the arrays, so the statement holds in every reachable state.
-/
import Capwap.Pool.Spatial

namespace Capwap

/-- The heap after a failed call: the regions that were live are live, with the bytes they had, and
what was obtained during the call has been freed.  Only the count of answers used goes on, and the
ledger of what was obtained and freed. -/
structure Heap.Reverted (h h' : Heap) : Prop where
  live : h'.live = h.live
  bytes : h'.bytes = h.bytes
  faults : h'.faults = h.faults
  returned : ∃ mine, h'.got = mine ++ h.got ∧ h'.freed = mine ++ h.freed

/-- A request that fails uses an answer up. -/
theorem Heap.Reverted.use (h : Heap) : h.Reverted { h with calls := h.calls + 1 } :=
  ⟨rfl, rfl, rfl, [], rfl, rfl⟩

/-- What was obtained last is found first when it is freed, even at the base of another region. -/
theorem Heap.free_head (h : Heap) (p size calls : Nat) :
    Heap.free { h with
      live := ⟨p, size⟩ :: h.live, got := ⟨p, size⟩ :: h.got, calls := calls } p
      = { h with
          live := h.live, got := ⟨p, size⟩ :: h.got, freed := ⟨p, size⟩ :: h.freed,
          calls := calls } := by
  unfold Heap.free
  simp only [List.find?_cons_of_pos, decide_true, List.erase_cons_head]

section
variable {A : Alignment} {p p' : Pool} {size : Nat} {h h' : Heap}

/-- Two ways lead to `NULL`: the large region is refused, or the record for it finds no room and a
block for the record is refused, in which case the region is freed again. -/
theorem pallocLarge_none (hr : pallocLarge A p size h = (none, p', h')) :
    p' = p ∧ h.Reverted h' := by
  simp only [pallocLarge, cwAlloc] at hr
  cases hq : h.request size with
  | mk ans h₁ =>
    rw [hq] at hr
    cases ans with
    | none =>
      obtain rfl := Heap.request_none hq
      obtain ⟨rfl, rfl⟩ := Prod.mk.inj (Prod.mk.inj hr).2
      exact ⟨rfl, .use h⟩
    | some q =>
      obtain ⟨-, rfl⟩ := Heap.request_some hq
      simp only at hr
      cases hl : reuseLarge q 0 p.large with
      | some large =>
        rw [hl] at hr
        exact absurd (congrArg Prod.fst hr) (by simp)
      | none =>
        rw [hl] at hr
        simp only at hr
        -- the large region is there, and its record is not
        cases hs : pallocSmall A p sizeofPoolLarge true { h with
          live := ⟨q, size⟩ :: h.live, got := ⟨q, size⟩ :: h.got, calls := h.calls + 1 } with
        | mk node rest =>
          obtain ⟨p₂, h₂⟩ := rest
          rw [hs] at hr
          cases node with
          | some node => exact absurd (congrArg Prod.fst hr) (by simp)
          | none =>
            obtain ⟨rfl, rfl⟩ := pallocSmall_none hs
            obtain ⟨rfl, rfl⟩ := Prod.mk.inj (Prod.mk.inj hr).2
            refine ⟨rfl, ?_⟩
            have hfree := h.free_head q size (h.calls + 1 + 1)
            simp only at hfree ⊢
            rw [hfree]
            exact ⟨rfl, rfl, rfl, [⟨q, size⟩], rfl, rfl⟩

/-- The two entry points are one function of `align`. -/
theorem entry_reverted (align : Bool)
    (hr : (if size ≤ p.max then pallocSmall A p size align h else pallocLarge A p size h)
      = (none, p', h')) : p' = p ∧ h.Reverted h' := by
  split at hr
  · obtain ⟨rfl, rfl⟩ := pallocSmall_none hr
    exact ⟨rfl, .use h⟩
  · exact pallocLarge_none hr

theorem palloc_none (hr : palloc A p size h = (none, p', h')) : p' = p ∧ h.Reverted h' :=
  entry_reverted true hr

theorem pnalloc_none (hr : pnalloc A p size h = (none, p', h')) : p' = p ∧ h.Reverted h' :=
  entry_reverted false hr

theorem pcalloc_none (hr : pcalloc A p size h = (none, p', h')) : p' = p ∧ h.Reverted h' := by
  unfold pcalloc at hr
  split at hr
  · exact absurd (congrArg Prod.fst hr) (by simp)
  · rename_i hpalloc
    obtain ⟨rfl, rfl⟩ := Prod.mk.inj (Prod.mk.inj hr).2
    exact palloc_none hpalloc

variable {a a' : CwArray}

/-- A push fails when the allocation for the larger area does. -/
theorem arrayPush_none (hr : arrayPush A a p h = (none, a', p', h')) :
    a' = a ∧ p' = p ∧ h.Reverted h' := by
  unfold arrayPush at hr
  split at hr
  · simp only at hr
    split at hr
    · exact absurd (congrArg Prod.fst hr) (by simp)
    · split at hr
      · rename_i hpalloc
        obtain ⟨rfl, hrest⟩ := Prod.mk.inj (Prod.mk.inj hr).2
        obtain ⟨rfl, rfl⟩ := Prod.mk.inj hrest
        exact ⟨rfl, palloc_none hpalloc⟩
      · exact absurd (congrArg Prod.fst hr) (by simp)
  · exact absurd (congrArg Prod.fst hr) (by simp)

theorem arrayPushN_none {n : Nat} (hr : arrayPushN A a n p h = (none, a', p', h')) :
    a' = a ∧ p' = p ∧ h.Reverted h' := by
  unfold arrayPushN at hr
  simp only at hr
  split at hr
  · split at hr
    · exact absurd (congrArg Prod.fst hr) (by simp)
    · split at hr
      · rename_i hpalloc
        obtain ⟨rfl, hrest⟩ := Prod.mk.inj (Prod.mk.inj hr).2
        obtain ⟨rfl, rfl⟩ := Prod.mk.inj hrest
        exact ⟨rfl, palloc_none hpalloc⟩
      · exact absurd (congrArg Prod.fst hr) (by simp)
  · exact absurd (congrArg Prod.fst hr) (by simp)

end

/-- A call that returns `NULL` changes neither the pool nor the array nor any byte, and keeps no
memory.  Each field is one entry point, for every size and every array. -/
structure FailsAtomically (A : Alignment) (p : Pool) (h : Heap) : Prop where
  palloc : ∀ size p' h', Capwap.palloc A p size h = (none, p', h') → p' = p ∧ h.Reverted h'
  pnalloc : ∀ size p' h', Capwap.pnalloc A p size h = (none, p', h') → p' = p ∧ h.Reverted h'
  pcalloc : ∀ size p' h', Capwap.pcalloc A p size h = (none, p', h') → p' = p ∧ h.Reverted h'
  arrayPush : ∀ a a' p' h', Capwap.arrayPush A a p h = (none, a', p', h') →
    a' = a ∧ p' = p ∧ h.Reverted h'
  arrayPushN : ∀ a n a' p' h', Capwap.arrayPushN A a n p h = (none, a', p', h') →
    a' = a ∧ p' = p ∧ h.Reverted h'

/-- **Failed allocations are atomic**, in every state of the pool and of the heap, for every array
and every size.  No invariant is assumed of either. -/
theorem failsAtomically (A : Alignment) (p : Pool) (h : Heap) : FailsAtomically A p h where
  palloc _ _ _ hr := palloc_none hr
  pnalloc _ _ _ hr := pnalloc_none hr
  pcalloc _ _ _ hr := pcalloc_none hr
  arrayPush _ _ _ _ hr := arrayPush_none hr
  arrayPushN _ _ _ _ _ hr := arrayPushN_none hr

/-- A large allocation whose record finds no room, and gets none: the region is given back. -/
example : (palloc .word ⟨⟨4096, 4190, 4200, 0⟩, [], 24, 0, []⟩ 100
    (Heap.fresh fun n => if n = 0 then some 8192 else none)).2.2.freed = [⟨8192, 100⟩] := by
  decide

end Capwap
