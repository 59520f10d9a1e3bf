/-
# The search window of a pool

`cw_palloc_small` looks at the blocks from `pool->current` to the end of the chain, and nothing in
the code says how many these are.  The bound comes from `cw_palloc_block`: it counts a failure on
every block of that part but the last, and moves `current` past a block that had failed more than
four times.  So the counters from `current` on are a countdown (`Pool.Window`), which one more
block makes longer by one, until it is seven blocks long and its first block is left behind.

What a call does to the chain is a sequence of two kinds of step, one that leaves counters and
`current` as they are and one that appends a block (`Pool.Advance`).  The invariant is proved for
these, and for every list of calls from it.
-/
import Capwap.Pool.Spatial

namespace Capwap

/-! ## 1. The shape of the counters

Each time a block is appended, every block from `current` on has failed once more, but for the one
that was the last until then.  So the last two blocks have failed 0 times, and before them the
counters rise by one from each block to the one before: a countdown to two zeros. -/

/-- The numbers `k, k-1, ..., 1, 0, 0`, which are `k + 2` blocks. -/
def countdown : Nat → List Nat
  | 0 => [0, 0]
  | k + 1 => (k + 1) :: countdown k

theorem length_countdown : ∀ k, (countdown k).length = k + 2 := by
  intro k
  induction k with
  | zero => rfl
  | succ k ih => exact congrArg (· + 1) ih

theorem le_of_mem_countdown {x : Nat} : ∀ {k : Nat}, x ∈ countdown k → x ≤ k := by
  intro k
  induction k with
  | zero =>
    intro h
    simpa [countdown] using h
  | succ k ih =>
    intro h
    rcases List.mem_cons.mp h with rfl | h
    · exact Nat.le_refl _
    · exact Nat.le_succ_of_le (ih h)

/-- The blocks `cw_palloc_small` looks at. -/
def Pool.window (p : Pool) : List Block := p.blocks.drop p.current

/-- The counters: 6 before `current`, and a single 0 or a countdown of at most seven blocks from
there on.  The single 0 is a pool that has one block. -/
structure Pool.Window (p : Pool) : Prop where
  current_lt : p.current < p.blocks.length
  past : ∀ b ∈ p.blocks.take p.current, b.failed = 6
  shape : (p.rest = [] ∧ p.window.map Block.failed = [0]) ∨
    ∃ k, k ≤ 5 ∧ p.window.map Block.failed = countdown k

theorem Pool.Window.length_le {p : Pool} (h : p.Window) : p.window.length ≤ 7 := by
  rcases h.shape with ⟨-, hone⟩ | ⟨k, hk, hdown⟩
  · have hlen := congrArg List.length hone
    simp only [List.length_map, List.length_singleton] at hlen
    omega
  · have hlen := congrArg List.length hdown
    rw [List.length_map, length_countdown] at hlen
    omega

/-! ## 2. Appending a block

One lemma for the counters and one for `current`, since `cw_palloc_block` changes both in one loop.
With a countdown from 5 the first block is found to have failed five times already, and `current`
moves past it; the block itself is left with the number 6.  All the others are below, so `current`
moves by one at most. -/

/-- One more block makes a countdown longer by one.  The induction is on the countdown. -/
theorem countFailures_countdown : ∀ (k i cur : Nat) (bs : List Block),
    bs.map Block.failed = countdown k →
    (countFailures i cur bs).1.map Block.failed ++ [0] = countdown (k + 1) := by
  intro k
  induction k with
  | zero =>
    intro i cur bs h
    obtain ⟨b, rest, rfl, hb, hrest⟩ := List.map_eq_cons_iff.mp h
    obtain ⟨c, tail, rfl, hc, htail⟩ := List.map_eq_cons_iff.mp hrest
    obtain rfl := List.map_eq_nil_iff.mp htail
    simp [countFailures, hb, hc, countdown]
  | succ k ih =>
    intro i cur bs h
    obtain ⟨b, rest, rfl, hb, hrest⟩ := List.map_eq_cons_iff.mp h
    have hrec := ih (i + 1) (if b.failed > 4 then i + 1 else cur) rest hrest
    cases rest with
    | nil => cases k <;> simp [countdown] at hrest
    | cons c tail =>
      unfold countFailures
      simp only [List.map_cons, List.cons_append]
      rw [hrec, hb]
      rfl

/-- No block has failed often enough, so `current` stays. -/
theorem countFailures_stays : ∀ (bs : List Block) (i cur : Nat),
    (∀ b ∈ bs, b.failed ≤ 4) → (countFailures i cur bs).2 = cur := by
  intro bs i cur
  induction i, cur, bs using countFailures.induct with
  | case1 =>
    intro _
    rfl
  | case2 =>
    intro _
    rfl
  | case3 i cur b c bs cur' ih =>
    intro h
    have hb : ¬ b.failed > 4 := Nat.not_lt.mpr (h b List.mem_cons_self)
    have hrec := ih fun d hd => h d (List.mem_cons_of_mem _ hd)
    exact hrec.trans (if_neg hb)

/-- `current` moves past the first block of a countdown from 5, and past no other. -/
theorem countFailures_moves {k i cur : Nat} {bs : List Block} (hk : k ≤ 5)
    (h : bs.map Block.failed = countdown k) :
    (countFailures i cur bs).2 = if k = 5 then i + 1 else cur := by
  have hle : ∀ {j : Nat} {cs : List Block}, j ≤ 4 → cs.map Block.failed = countdown j →
      ∀ b ∈ cs, b.failed ≤ 4 := by
    intro j cs hj hcs b hb
    have hmem : b.failed ∈ countdown j := hcs ▸ List.mem_map_of_mem hb
    exact Nat.le_trans (le_of_mem_countdown hmem) hj
  by_cases hfive : k = 5
  · subst hfive
    obtain ⟨b, rest, rfl, hb, hrest⟩ := List.map_eq_cons_iff.mp h
    have hsmall := hle (Nat.le_refl 4) hrest
    cases rest with
    | nil => simp [countdown] at hrest
    | cons c tail =>
      have hpast : b.failed > 4 := by
        rw [hb]
        decide
      unfold countFailures
      simp only [if_pos hpast, if_true]
      exact countFailures_stays (c :: tail) (i + 1) (i + 1) hsmall
  · rw [if_neg hfive]
    exact countFailures_stays bs i cur (hle (by omega) h)

/-- The chain that `cw_palloc_block` leaves when it gets the block `fresh`. -/
def Pool.append (p : Pool) (fresh : Block) : Pool :=
  let r := countFailures p.current p.current p.window
  { p.withBlocks (p.blocks.take p.current ++ r.1 ++ [fresh]) with current := r.2 }

theorem Pool.append_blocks (p : Pool) (fresh : Block) : (p.append fresh).blocks
    = p.blocks.take p.current ++ ((countFailures p.current p.current p.window).1 ++ [fresh]) := by
  have hne : p.blocks.take p.current ++ (countFailures p.current p.current p.window).1 ++ [fresh]
      ≠ [] := by simp
  rw [← List.append_assoc]
  exact p.blocks_withBlocks hne

/-- No base is changed by counting. -/
theorem countFailures_base (bs : List Block) (i cur : Nat) :
    (countFailures i cur bs).1.map Block.base = bs.map Block.base := by
  have h := congrArg (List.map Prod.fst) (countFailures_geom bs i cur)
  rw [List.map_map, List.map_map] at h
  exact h

/-- The new counters, in two parts. -/
theorem Pool.append_parts {p : Pool} (h : p.current < p.blocks.length) (fresh : Block) :
    (p.append fresh).blocks.take p.current = p.blocks.take p.current ∧
      (p.append fresh).blocks.drop p.current
        = (countFailures p.current p.current p.window).1 ++ [fresh] := by
  have hlen : (p.blocks.take p.current).length = p.current :=
    List.length_take_of_le (Nat.le_of_lt h)
  rw [p.append_blocks fresh]
  exact ⟨List.take_left' hlen, List.drop_left' hlen⟩

/-- What `q` is to `p` when only blocks have been appended: the chain goes on, and `current` has
moved forward by no more than one block for each of them. -/
structure Pool.Ahead (p q : Pool) : Prop where
  chain : p.blocks.map Block.base <+: q.blocks.map Block.base
  forward : p.current ≤ q.current
  slow : q.current + p.blocks.length ≤ p.current + q.blocks.length

theorem Pool.Ahead.refl (p : Pool) : p.Ahead p := ⟨List.prefix_rfl, Nat.le_refl _, Nat.le_refl _⟩

theorem Pool.Ahead.trans {p q r : Pool} (h : p.Ahead q) (h' : q.Ahead r) : p.Ahead r := by
  refine ⟨h.chain.trans h'.chain, Nat.le_trans h.forward h'.forward, ?_⟩
  have h1 := h.slow
  have h2 := h'.slow
  omega

/-- A new block keeps the window, and `current` stays or moves by one. -/
theorem Pool.Window.append {p : Pool} (h : p.Window) {fresh : Block} (hfresh : fresh.failed = 0) :
    (p.append fresh).Window ∧ p.Ahead (p.append fresh) ∧
      ((p.append fresh).current = p.current ∨ (p.append fresh).current = p.current + 1) := by
  obtain ⟨htake, hdrop⟩ := Pool.append_parts h.current_lt fresh
  have hlength : (p.append fresh).blocks.length = p.blocks.length + 1 := by
    have hlen := congrArg List.length (p.append_blocks fresh)
    have hlt := h.current_lt
    simp only [List.length_append, List.length_take, List.length_singleton,
      countFailures_length, Pool.window, List.length_drop] at hlen
    omega
  have hchain : p.blocks.map Block.base <+: (p.append fresh).blocks.map Block.base := by
    refine ⟨[fresh.base], ?_⟩
    calc p.blocks.map Block.base ++ [fresh.base]
        _ = (p.blocks.take p.current ++ p.blocks.drop p.current).map Block.base
            ++ [fresh.base] := by
          rw [List.take_append_drop]
        _ = (p.append fresh).blocks.map Block.base := by
          rw [p.append_blocks fresh]
          simp only [List.map_append, countFailures_base, Pool.window, List.map_cons, List.map_nil,
            List.append_assoc]
  -- the counters from the old `current` on, and where the new one is
  have hnew : ∃ k, k ≤ 5 ∧ ((p.append fresh).blocks.drop p.current).map Block.failed
        = countdown k ∧ (p.append fresh).current = p.current ∨
      ((p.append fresh).blocks.drop p.current).map Block.failed = countdown 6 ∧
        (p.append fresh).current = p.current + 1 := by
    rw [hdrop, List.map_append, List.map_cons, List.map_nil, hfresh]
    rcases h.shape with ⟨-, hone⟩ | ⟨k, hk, hdown⟩
    · obtain ⟨b, tail, hwin, hb, htail⟩ := List.map_eq_cons_iff.mp hone
      obtain rfl := List.map_eq_nil_iff.mp htail
      have hcurrent : (p.append fresh).current = (countFailures p.current p.current p.window).2 :=
        rfl
      refine ⟨0, Or.inl ⟨by omega, ?_, ?_⟩⟩
      · rw [hwin]
        simp [countFailures, hb, countdown]
      · rw [hcurrent, hwin]
        rfl
    · have hcurrent : (p.append fresh).current = if k = 5 then p.current + 1 else p.current :=
        countFailures_moves hk hdown
      have hcounters := countFailures_countdown k p.current p.current p.window hdown
      by_cases hfive : k = 5
      · subst hfive
        exact ⟨0, Or.inr ⟨hcounters, hcurrent⟩⟩
      · rw [if_neg hfive] at hcurrent
        exact ⟨k + 1, Or.inl ⟨by omega, hcounters, hcurrent⟩⟩
  have hlt := h.current_lt
  obtain ⟨k, ⟨hk, hdown, hcurrent⟩ | ⟨hdown, hcurrent⟩⟩ := hnew
  · refine ⟨⟨by omega, ?_, Or.inr ⟨k, hk, ?_⟩⟩, ⟨hchain, by omega, by omega⟩, Or.inl hcurrent⟩
    · rw [hcurrent, htake]
      exact h.past
    · rw [Pool.window, hcurrent]
      exact hdown
  · -- the first block of the window has failed six times now, and is left behind
    obtain ⟨b, tail, heq, hb, htail⟩ := List.map_eq_cons_iff.mp hdown
    have hsplit : (p.append fresh).blocks = p.blocks.take p.current ++ b :: tail := by
      rw [← List.take_append_drop p.current (p.append fresh).blocks, htake, heq]
    have hlen : (p.blocks.take p.current ++ [b]).length = p.current + 1 := by
      rw [List.length_append, List.length_take_of_le (Nat.le_of_lt hlt), List.length_singleton]
    rw [List.append_cons] at hsplit
    refine ⟨⟨by omega, ?_, Or.inr ⟨5, Nat.le_refl 5, ?_⟩⟩, ⟨hchain, by omega, by omega⟩,
      Or.inr hcurrent⟩
    · rw [hcurrent, hsplit, List.take_left' hlen]
      intro c hc
      rcases List.mem_append.mp hc with hc | hc
      · exact h.past c hc
      · obtain rfl := List.mem_singleton.mp hc
        exact hb
    · rw [Pool.window, hcurrent, hsplit, List.drop_left' hlen]
      exact htail

/-! ## 3. What a call does to the chain

The counters are touched by `cw_palloc_block` alone, and everything else that happens to a pool
leaves them and `current` as they are.  `Pool.Advance` says this for all functions at once; it
holds of every call with any arguments, so no obligation of the callers appears in this file. -/

/-- What a block shows of the window: where it is and how often it has failed. -/
def Block.mark (b : Block) : Nat × Nat := (b.base, b.failed)

/-- The chain moves on: it stays as it is, or a block is appended, and so on.  `still` allows
anything to happen to the other fields, `last` among them. -/
inductive Pool.Advance : Pool → Pool → Prop
  | still {p q : Pool} (marks : q.blocks.map Block.mark = p.blocks.map Block.mark)
      (current : q.current = p.current) : Advance p q
  | append (p : Pool) {fresh : Block} (hfresh : fresh.failed = 0) : Advance p (p.append fresh)
  | trans {p q r : Pool} : Advance p q → Advance q r → Advance p r

theorem Pool.Advance.refl (p : Pool) : p.Advance p := .still rfl rfl

/-- What is neither a counter nor `current` does not matter to the window. -/
theorem Pool.Window.still {p q : Pool} (h : p.Window)
    (marks : q.blocks.map Block.mark = p.blocks.map Block.mark)
    (current : q.current = p.current) : q.Window ∧ p.Ahead q := by
  have hfailed : q.blocks.map Block.failed = p.blocks.map Block.failed := by
    have h := congrArg (List.map Prod.snd) marks
    rwa [List.map_map, List.map_map] at h
  have hbase : q.blocks.map Block.base = p.blocks.map Block.base := by
    have h := congrArg (List.map Prod.fst) marks
    rwa [List.map_map, List.map_map] at h
  have hlength : q.blocks.length = p.blocks.length := by
    have h := congrArg List.length hbase
    rwa [List.length_map, List.length_map] at h
  refine ⟨⟨?_, ?_, ?_⟩, ⟨hbase ▸ List.prefix_rfl, Nat.le_of_eq current.symm, ?_⟩⟩
  · rw [current, hlength]
    exact h.current_lt
  · intro b hb
    have hmem : b.failed ∈ (p.blocks.take p.current).map Block.failed := by
      rw [List.map_take, ← hfailed, ← List.map_take, ← current]
      exact List.mem_map_of_mem hb
    obtain ⟨c, hc, heq⟩ := List.mem_map.mp hmem
    exact heq ▸ h.past c hc
  · have hwindow : q.window.map Block.failed = p.window.map Block.failed := by
      rw [Pool.window, Pool.window, List.map_drop, List.map_drop, hfailed, current]
    rw [hwindow]
    refine h.shape.imp (fun hone => ⟨?_, hone.2⟩) id
    have hrest : q.rest.length = p.rest.length := Nat.succ.inj hlength
    rw [hone.1] at hrest
    exact List.eq_nil_of_length_eq_zero hrest
  · rw [current, hlength]

/-- Every step keeps the window and goes forward.  The induction is on the steps. -/
theorem Pool.Advance.window {p q : Pool} (ha : p.Advance q) (h : p.Window) :
    q.Window ∧ p.Ahead q := by
  induction ha with
  | still marks current => exact h.still marks current
  | append p hfresh =>
    obtain ⟨hwin, hahead, -⟩ := h.append hfresh
    exact ⟨hwin, hahead⟩
  | trans _ _ ih ih' =>
    obtain ⟨hq, hpq⟩ := ih h
    obtain ⟨hr, hqr⟩ := ih' hq
    exact ⟨hr, hpq.trans hqr⟩

section
variable (A : Alignment) (p : Pool) (size : Nat) (align : Bool) (h : Heap)

theorem Pool.advance_setLast (n : Nat) : p.Advance (p.setLast n) := .still rfl rfl

theorem Pool.advance_pallocBlock : p.Advance (pallocBlock A p size h).2.1 := by
  unfold pallocBlock
  simp only
  cases cwMemalign (wsub p.head.fin p.head.base) h with
  | mk ans h' =>
    cases ans with
    | none => exact .refl p
    | some base => exact .append p rfl

theorem Pool.advance_pallocSmall : p.Advance (pallocSmall A p size align h).2.1 := by
  unfold pallocSmall
  cases hs : searchSmall A size align (p.blocks.drop p.current) with
  | none => exact p.advance_pallocBlock A size h
  | some r =>
    obtain ⟨m, bs⟩ := r
    obtain ⟨L, b, T, heq, rfl, -, -⟩ := searchSmall_some hs
    have hne : p.blocks.take p.current ++ (L ++ { b with last := wadd m size } :: T) ≠ [] := by
      simp
    refine .still ?_ (p.current_withBlocks _)
    calc (p.withBlocks (p.blocks.take p.current
          ++ (L ++ { b with last := wadd m size } :: T))).blocks.map Block.mark
        _ = (p.blocks.take p.current ++ (L ++ b :: T)).map Block.mark := by
          rw [p.blocks_withBlocks hne]
          simp only [List.map_append, List.map_cons, Block.mark]
        _ = p.blocks.map Block.mark := by rw [← heq, List.take_append_drop]

theorem Pool.advance_pallocLarge : p.Advance (pallocLarge A p size h).2.1 := by
  unfold pallocLarge
  cases cwAlloc size h with
  | mk ans h' =>
    cases ans with
    | none => exact .refl p
    | some q =>
      simp only
      cases reuseLarge q 0 p.large with
      | some large => exact .still rfl rfl
      | none =>
        have hsmall := p.advance_pallocSmall A sizeofPoolLarge true h'
        simp only
        cases hr : pallocSmall A p sizeofPoolLarge true h' with
        | mk node rest =>
          obtain ⟨p', h''⟩ := rest
          rw [hr] at hsmall
          cases node with
          | none => exact hsmall
          | some node => exact hsmall.trans (.still rfl rfl)

theorem Pool.advance_palloc : p.Advance (palloc A p size h).2.1 := by
  unfold palloc
  split
  · exact p.advance_pallocSmall A size true h
  · exact p.advance_pallocLarge A size h

theorem Pool.advance_pnalloc : p.Advance (pnalloc A p size h).2.1 := by
  unfold pnalloc
  split
  · exact p.advance_pallocSmall A size false h
  · exact p.advance_pallocLarge A size h

theorem Pool.advance_pcalloc : p.Advance (pcalloc A p size h).2.1 := by
  have hpalloc := p.advance_palloc A size h
  unfold pcalloc
  split <;> rename_i hr <;> rw [hr] at hpalloc <;> exact hpalloc

theorem Pool.advance_arrayInit (n : Nat) : p.Advance (arrayInit A p n size h).2.1 := by
  have hpalloc := p.advance_palloc A (wmul n size) h
  unfold arrayInit
  split <;> rename_i hr <;> rw [hr] at hpalloc <;> exact hpalloc

theorem Pool.advance_arrayCreate (n : Nat) : p.Advance (arrayCreate A p n size h).2.1 := by
  have hself := p.advance_palloc A sizeofArray h
  unfold arrayCreate
  split
  · rename_i hr
    rw [hr] at hself
    exact hself
  · rename_i self p' h' hr
    rw [hr] at hself
    have hinit := p'.advance_arrayInit A size h' n
    split <;> rename_i hr' <;> rw [hr'] at hinit <;> exact hself.trans hinit

theorem Pool.advance_arrayPush (a : CwArray) : p.Advance (arrayPush A a p h).2.2.1 := by
  unfold arrayPush
  split
  · simp only
    split
    · exact p.advance_setLast _
    · have hpalloc := p.advance_palloc A (wmul 2 (wmul a.size a.nalloc)) h
      split <;> rename_i hr <;> rw [hr] at hpalloc <;> exact hpalloc
  · exact .refl p

theorem Pool.advance_arrayPushN (a : CwArray) (n : Nat) :
    p.Advance (arrayPushN A a n p h).2.2.1 := by
  unfold arrayPushN
  simp only
  split
  · split
    · exact p.advance_setLast _
    · have hpalloc := p.advance_palloc A
        (wmul (wmul 2 (if n ≥ a.nalloc then n else a.nalloc)) a.size) h
      split <;> rename_i hr <;> rw [hr] at hpalloc <;> exact hpalloc
  · exact .refl p

theorem Pool.advance_arrayDestroy (self : Nat) (a : CwArray) :
    p.Advance (arrayDestroy self a p) := by
  unfold arrayDestroy
  simp only
  split <;> split
  · exact (p.advance_setLast _).trans (Pool.advance_setLast _ _)
  · exact p.advance_setLast _
  · exact p.advance_setLast _
  · exact .refl p

end

namespace PoolWorld

/-- Whatever a client calls, and with whatever arguments, the chain moves on. -/
theorem advance_step (A : Alignment) (w : PoolWorld) (op : PoolOp) :
    w.pool.Advance (w.step A op).2.pool := by
  have hand : ∀ (n : Nat) (r : Option Nat × Pool × Heap), (w.handOut n r).2.pool = r.2.1 := by
    rintro n ⟨_ | m, p, h⟩ <;> rfl
  cases op with
  | palloc size =>
    simp only [step, hand]
    exact w.pool.advance_palloc A size w.heap
  | pnalloc size =>
    simp only [step, hand]
    exact w.pool.advance_pnalloc A size w.heap
  | pcalloc size =>
    simp only [step, hand]
    exact w.pool.advance_pcalloc A size w.heap
  | arrayCreate n size =>
    have hcreate := w.pool.advance_arrayCreate A size w.heap n
    simp only [step]
    split <;> rename_i hr <;> rw [hr] at hcreate <;> exact hcreate
  | arrayPush i =>
    simp only [step]
    split
    · exact .refl _
    · exact w.pool.advance_arrayPush A w.heap _
  | arrayPushN i n =>
    simp only [step]
    split
    · exact .refl _
    · exact w.pool.advance_arrayPushN A w.heap _ n
  | arrayDestroy i =>
    simp only [step]
    split
    · exact .refl _
    · exact w.pool.advance_arrayDestroy _ _

theorem create_window {size : Nat} {h : Heap} {w : PoolWorld} (hc : create size h = some w) :
    w.pool.Window := by
  unfold create at hc
  split at hc
  · cases hc
  · rename_i pool heap hp
    cases hc
    simp only [createPool] at hp
    split at hp
    · cases hp
    · cases hp
      refine ⟨Nat.zero_lt_one, ?_, Or.inl ⟨rfl, rfl⟩⟩
      intro b hb
      cases hb

/-- Every list of calls keeps the window.  The induction is on the calls. -/
theorem run_window (A : Alignment) : ∀ (ops : List PoolOp) {w : PoolWorld}, w.pool.Window →
    (w.run A ops).pool.Window
  | [], _, h => h
  | op :: ops, w, h => run_window A ops ((w.advance_step A op).window h).1

end PoolWorld

/-! ## 4. The bound -/

/-- How many blocks the loop of `cw_palloc_small` looks at. -/
def searched (A : Alignment) (size : Nat) (align : Bool) : List Block → Nat
  | [] => 0
  | b :: bs =>
    let m := if align then alignPtr b.last A.bytes else b.last
    if size ≤ wsub b.fin m then 1 else 1 + searched A size align bs

theorem searched_le (A : Alignment) (size : Nat) (align : Bool) :
    ∀ bs, searched A size align bs ≤ bs.length := by
  intro bs
  induction bs with
  | nil => exact Nat.le_refl 0
  | cons b bs ih =>
    unfold searched
    generalize (if align then alignPtr b.last A.bytes else b.last) = m
    simp only [List.length_cons]
    split <;> omega

/-- What a pool promises about searching it. -/
structure PoolWorld.Bounded (A : Alignment) (w : PoolWorld) : Prop where
  /-- the counters, on a chain that `current` is a block of -/
  window : w.pool.Window
  /-- the window has at most seven blocks, and no search looks at more -/
  length_le : w.pool.window.length ≤ 7
  searched_le : ∀ size align, searched A size align w.pool.window ≤ 7
  /-- whatever is called next, `current` does not go back, and it moves by no more blocks than
  are appended -/
  forward : ∀ op, w.pool.Ahead (w.step A op).2.pool
  /-- a new block moves it by one or not at all -/
  slow : ∀ size h, (pallocBlock A w.pool size h).2.1.current = w.pool.current ∨
    (pallocBlock A w.pool size h).2.1.current = w.pool.current + 1

namespace PoolWorld

/-- **However long a pool has lived, it searches at most seven blocks**: for every pool made by
`cw_create_pool` and every list of calls with any arguments, whatever the heap answers.  A block
that is left behind is never looked at again, however much room it has. -/
theorem run_bounded (A : Alignment) {size : Nat} {h : Heap} {w : PoolWorld}
    (hc : create size h = some w) (ops : List PoolOp) : (w.run A ops).Bounded A := by
  have hwin := run_window A ops (create_window hc)
  refine ⟨hwin, hwin.length_le, ?_, ?_, ?_⟩
  · intro size align
    exact Nat.le_trans (Capwap.searched_le A size align _) hwin.length_le
  · intro op
    exact ((advance_step A _ op).window hwin).2
  · intro size h
    unfold pallocBlock
    simp only
    cases cwMemalign _ h with
    | mk ans h' =>
      cases ans with
      | none => exact Or.inl rfl
      | some base => exact (hwin.append rfl).2.2

/-- Eleven allocations of 900 bytes from a pool of 1024: `current` is the fifth of eleven blocks. -/
theorem run_bounded_sample :
    ∃ w, create 1024 (Heap.fresh fun n => some (4096 * (n + 1))) = some w ∧
      let w' := w.run .word (List.replicate 11 (.palloc 900))
      w'.pool.blocks.length = 11 ∧ w'.pool.current = 4 ∧ w'.Bounded .word :=
  ⟨_, rfl, by decide +kernel, by decide +kernel,
    @run_bounded .word 1024 (Heap.fresh fun n => some (4096 * (n + 1))) _ rfl _⟩

end PoolWorld

end Capwap
