/-
# Destroying a pool releases what it obtained, once

`cw_destroy_pool` walks the list of large allocations, whose records lie in the blocks, and
then the chain of blocks, reading each header after the block before it is gone.  The heap
complains (`HeapFault`) about a `free` of an address where nothing live starts and about a
read outside every live region, so "no complaint" says that nothing is freed twice and nothing
is read after it was freed; what is live afterwards says that nothing is left over.

The ledger of a heap (`Heap.Ok.ledger`) balances what was obtained against what is live or
freed.  Section 1 follows `got`, which no function shortens; section 2 is `cw_destroy_pool`
under the pool invariant; section 3 puts both together over whole runs.
-/
import Capwap.Pool.Runs

namespace Capwap

/-! ## 1. What was obtained stays obtained

`got` is the list of all regions the heap ever granted, newest first.  No function of the pool
takes anything out of it, so the regions obtained since some moment are a front part of it
(`mine ++ h.got`), which is how the theorem names them. -/

namespace Heap

theorem got_request (h : Heap) (size : Nat) : h.got <:+ (h.request size).2.got := by
  unfold request
  split
  · exact List.suffix_rfl
  · split
    · exact List.suffix_cons _ _
    · exact List.suffix_rfl

@[simp] theorem got_free (h : Heap) (addr : Nat) : (h.free addr).got = h.got := by
  unfold free
  split <;> rfl

@[simp] theorem got_read (h : Heap) (r : Region) : (h.read r).got = h.got := by
  unfold read
  split <;> rfl

@[simp] theorem got_memzero (h : Heap) (p n : Nat) : (h.memzero p n).got = h.got := rfl

@[simp] theorem got_memcpy (h : Heap) (dst src n : Nat) : (h.memcpy dst src n).got = h.got := rfl

end Heap

section
variable (A : Alignment)

theorem got_createPool (size : Nat) (h : Heap) : h.got <:+ (createPool size h).2.got := by
  have hreq := h.got_request size
  unfold createPool cwMemalign
  cases hq : h.request size with
  | mk ans h₁ =>
    rw [hq] at hreq
    cases ans <;> exact hreq

theorem got_pallocBlock (p : Pool) (size : Nat) (h : Heap) :
    h.got <:+ (pallocBlock A p size h).2.2.got := by
  have hreq := h.got_request (wsub p.head.fin p.head.base)
  simp only [pallocBlock, cwMemalign]
  cases hq : h.request (wsub p.head.fin p.head.base) with
  | mk ans h₁ =>
    rw [hq] at hreq
    cases ans <;> exact hreq

theorem got_pallocSmall (p : Pool) (size : Nat) (align : Bool) (h : Heap) :
    h.got <:+ (pallocSmall A p size align h).2.2.got := by
  unfold pallocSmall
  split
  · exact List.suffix_rfl
  · exact got_pallocBlock A p size h

theorem got_pallocLarge (p : Pool) (size : Nat) (h : Heap) :
    h.got <:+ (pallocLarge A p size h).2.2.got := by
  have hreq := h.got_request size
  unfold pallocLarge cwAlloc
  cases hq : h.request size with
  | mk ans h₁ =>
    rw [hq] at hreq
    cases ans with
    | none => exact hreq
    | some q =>
      simp only
      split
      · exact hreq
      · -- the record of the allocation comes from the blocks
        have hsmall := got_pallocSmall A p sizeofPoolLarge true h₁
        cases hs : pallocSmall A p sizeofPoolLarge true h₁ with
        | mk ans' rest =>
          rw [hs] at hsmall
          cases ans' with
          | none => simpa using hreq.trans hsmall
          | some node => exact hreq.trans hsmall

theorem got_palloc (p : Pool) (size : Nat) (h : Heap) :
    h.got <:+ (palloc A p size h).2.2.got := by
  unfold palloc
  split
  · exact got_pallocSmall A p size true h
  · exact got_pallocLarge A p size h

theorem got_pnalloc (p : Pool) (size : Nat) (h : Heap) :
    h.got <:+ (pnalloc A p size h).2.2.got := by
  unfold pnalloc
  split
  · exact got_pallocSmall A p size false h
  · exact got_pallocLarge A p size h

theorem got_pcalloc (p : Pool) (size : Nat) (h : Heap) :
    h.got <:+ (pcalloc A p size h).2.2.got := by
  have hpalloc := got_palloc A p size h
  unfold pcalloc
  split <;> rename_i hr <;> rw [hr] at hpalloc <;> exact hpalloc

theorem got_arrayCreate (p : Pool) (n size : Nat) (h : Heap) :
    h.got <:+ (arrayCreate A p n size h).2.2.got := by
  have hctrl := got_palloc A p sizeofArray h
  unfold arrayCreate
  cases hr : palloc A p sizeofArray h with
  | mk ans rest =>
    obtain ⟨p₁, h₁⟩ := rest
    rw [hr] at hctrl
    cases ans with
    | none => exact hctrl
    | some self =>
      have helts := got_palloc A p₁ (wmul n size) h₁
      simp only [arrayInit]
      cases hr₂ : palloc A p₁ (wmul n size) h₁ with
      | mk ans₂ rest₂ =>
        rw [hr₂] at helts
        cases ans₂ <;> exact hctrl.trans helts

theorem got_arrayPush (a : CwArray) (p : Pool) (h : Heap) :
    h.got <:+ (arrayPush A a p h).2.2.2.got := by
  have hnew := got_palloc A p (wmul 2 (wmul a.size a.nalloc)) h
  unfold arrayPush
  simp only
  split
  · split
    · exact List.suffix_rfl
    · split <;> rename_i hr <;> rw [hr] at hnew <;> exact hnew
  · exact List.suffix_rfl

theorem got_arrayPushN (a : CwArray) (n : Nat) (p : Pool) (h : Heap) :
    h.got <:+ (arrayPushN A a n p h).2.2.2.got := by
  unfold arrayPushN
  simp only
  split
  · split
    · exact List.suffix_rfl
    · generalize hsize : wmul (wmul 2 (if n ≥ a.nalloc then n else a.nalloc)) a.size = size
      have hnew := got_palloc A p size h
      split <;> rename_i hr <;> rw [hr] at hnew <;> exact hnew
  · exact List.suffix_rfl

/-- No call of a client makes the ledger of obtained regions shorter. -/
theorem PoolWorld.got_step (w : PoolWorld) (op : PoolOp) :
    w.heap.got <:+ (w.step A op).2.heap.got := by
  have hout : ∀ {size : Nat} {r : Option Nat × Pool × Heap}, w.heap.got <:+ r.2.2.got →
      w.heap.got <:+ (w.handOut size r).2.heap.got := by
    intro size r hr
    obtain ⟨ans, p, h⟩ := r
    cases ans <;> exact hr
  cases op with
  | palloc size => exact hout (got_palloc A w.pool size w.heap)
  | pnalloc size => exact hout (got_pnalloc A w.pool size w.heap)
  | pcalloc size => exact hout (got_pcalloc A w.pool size w.heap)
  | arrayCreate n size =>
    have hcreate := got_arrayCreate A w.pool n size w.heap
    simp only [PoolWorld.step]
    split <;> rename_i hr <;> rw [hr] at hcreate <;> exact hcreate
  | arrayPush i =>
    simp only [PoolWorld.step]
    split
    · exact List.suffix_rfl
    · exact got_arrayPush A _ w.pool w.heap
  | arrayPushN i n =>
    simp only [PoolWorld.step]
    split
    · exact List.suffix_rfl
    · exact got_arrayPushN A _ n w.pool w.heap
  | arrayDestroy i =>
    simp only [PoolWorld.step]
    split <;> exact List.suffix_rfl

theorem PoolWorld.Reach.got {A : Alignment} {w₀ w : PoolWorld} (hr : Reach A w₀ w) :
    w₀.heap.got <:+ w.heap.got := by
  induction hr with
  | refl => exact List.suffix_rfl
  | tail _ _ ih => exact ih.trans (PoolWorld.got_step A _ _)

end

/-! ## 2. `cw_destroy_pool`

The order of the two loops matters.  The records of the large allocations lie in the blocks, so the
large allocations are freed while the blocks are still there; and each block's header names the
next block, so it is read before that block is gone and after the one before it is.  The two lemmas
say so loop by loop, with the regions that are live in between as the invariant. -/

/-- `free` of one of the live regions leaves the others. -/
theorem Heap.Ok.free_perm {h : Heap} (hok : h.Ok) {c : Region} {rest : List Region}
    (hlive : h.live.Perm (c :: rest)) :
    (h.free c.base).Ok ∧ (h.free c.base).live.Perm rest := by
  have hmem : c ∈ h.live := hlive.mem_iff.mpr List.mem_cons_self
  refine ⟨hok.free hmem, ?_⟩
  rw [hok.free_eq hmem]
  have herase := hlive.erase c
  rwa [List.erase_cons_head] at herase

/-- The first loop: the records are read in the blocks, the large allocations are gone. -/
theorem destroyLarge_spec : ∀ {ls : List Large} {wholes chunks other : List Region} {h : Heap},
    h.Ok → h.live.Perm (wholes ++ (chunks ++ other)) →
    (ls.map Large.alloc = wholes.map fun r => some r.base) →
    (∀ l ∈ ls, ∃ c ∈ chunks, Region.Inside ⟨l.node, sizeofPoolLarge⟩ c) →
    (destroyLarge ls h).Ok ∧ (destroyLarge ls h).live.Perm (chunks ++ other) ∧
      (destroyLarge ls h).got = h.got := by
  intro ls
  induction ls with
  | nil =>
    intro wholes chunks other h hok hlive hallocs _
    obtain rfl : wholes = [] := List.map_eq_nil_iff.mp hallocs.symm
    exact ⟨hok, hlive, rfl⟩
  | cons l ls ih =>
    intro wholes chunks other h hok hlive hallocs hin
    obtain ⟨w, wholes, rfl, hl, hls⟩ := List.map_eq_cons_iff.mp hallocs.symm
    replace hl := hl.symm
    replace hls := hls.symm
    obtain ⟨c, hc, hnode⟩ := hin l List.mem_cons_self
    have hmem : c ∈ h.live :=
      hlive.mem_iff.mpr (List.mem_append_right _ (List.mem_append_left _ hc))
    -- the record outlives the allocation it names
    obtain ⟨hok', hlive'⟩ := hok.free_perm (c := w) (by simpa using hlive)
    have hmem' : c ∈ (h.free w.base).live :=
      hlive'.mem_iff.mpr (List.mem_append_right _ (List.mem_append_left _ hc))
    unfold destroyLarge
    simp only [hl, Heap.read_eq hmem hnode, Heap.read_eq hmem' hnode]
    obtain ⟨h1, h2, h3⟩ := ih hok' hlive' hls fun k hk => hin k (List.mem_cons_of_mem _ hk)
    exact ⟨h1, h2, h3.trans (h.got_free _)⟩

/-- The second loop: `c` is the block to be freed next, and every later block still lives when
its header is read. -/
theorem destroyBlocks_spec : ∀ {bs : List Block} {c : Region} {other : List Region} {h : Heap},
    h.Ok → h.live.Perm (c :: (bs.map (fun b => (b.span sizeofPoolData).whole) ++ other)) →
    (∀ b ∈ bs, (b.span sizeofPoolData).Ok) →
    (destroyBlocks c.base bs h).Ok ∧ (destroyBlocks c.base bs h).live.Perm other ∧
      (destroyBlocks c.base bs h).got = h.got := by
  intro bs
  induction bs with
  | nil =>
    intro c other h hok hlive _
    obtain ⟨hok', hlive'⟩ := hok.free_perm hlive
    exact ⟨hok', hlive', h.got_free _⟩
  | cons n bs ih =>
    intro c other h hok hlive hspan
    obtain ⟨hok', hlive'⟩ := hok.free_perm hlive
    have hmem : (n.span sizeofPoolData).whole ∈ (h.free c.base).live :=
      hlive'.mem_iff.mpr List.mem_cons_self
    have hin : Region.Inside ⟨n.base, sizeofPoolData⟩ (n.span sizeofPoolData).whole := by
      have := Span.header_inside (hspan n List.mem_cons_self)
      simpa [Span.header, Block.span] using this
    unfold destroyBlocks
    rw [Heap.read_eq hmem hin]
    obtain ⟨h1, h2, h3⟩ := ih (c := (n.span sizeofPoolData).whole) hok' hlive'
      fun b hb => hspan b (List.mem_cons_of_mem _ hb)
    exact ⟨h1, h2, h3.trans (h.got_free _)⟩

namespace Pool.Inv

variable {A : Alignment} {psize : Nat} {h : Heap} {p : Pool} {wholes other live : List Region}

/-- The header of each block lies in a live region. -/
theorem header_live (hI : p.Inv A psize h wholes other live) {s : Span} (hs : s ∈ p.spans) :
    s.whole ∈ h.live ∧ s.header.Inside s.whole :=
  ⟨hI.chunk_mem (List.mem_append_left _ (List.mem_map_of_mem hs)),
    Span.header_inside (hI.sound.span_ok s hs)⟩

/-- `cw_destroy_pool` leaves what belongs to others, and nothing to complain about.  The
invariant's clause on where the records lie (`nodes_in`) is there for this: each record is read
while its block is live. -/
theorem destroyPool (hI : p.Inv A psize h wholes other live) :
    (Capwap.destroyPool p h).Ok ∧ (Capwap.destroyPool p h).live.Perm other ∧
      (Capwap.destroyPool p h).got = h.got := by
  have hhead : p.head.span sizeofPool ∈ p.spans := List.mem_cons_self
  have hinside : Region.Inside ⟨p.head.base, sizeofPool⟩ (p.head.span sizeofPool).whole := by
    simpa [Span.header, Block.span] using (hI.header_live hhead).2
  have hperm : h.live.Perm (wholes ++ (p.spans.map Span.whole ++ other)) := by
    refine hI.owned.trans ?_
    rw [List.append_assoc]
    exact List.perm_append_comm_assoc _ _ _
  have hnode : ∀ l ∈ p.large, ∃ c ∈ p.spans.map Span.whole,
      Region.Inside ⟨l.node, sizeofPoolLarge⟩ c :=
    fun l hl => hI.nodes_in _ (List.mem_map_of_mem hl)
  unfold Capwap.destroyPool
  simp only [Heap.read_eq (hI.header_live hhead).1 hinside]
  obtain ⟨hok₁, hlive₁, hgot₁⟩ := destroyLarge_spec hI.heap_ok hperm hI.allocs hnode
  -- the blocks are all that is left, and the head's header is read once more
  have hlive₂ : (destroyLarge p.large h).live.Perm ((p.head.span sizeofPool).whole ::
      (p.rest.map (fun b => (b.span sizeofPoolData).whole) ++ other)) := by
    simpa [Pool.spans_cons, Function.comp_def] using hlive₁
  rw [Heap.read_eq (hlive₂.mem_iff.mpr List.mem_cons_self) hinside]
  obtain ⟨h1, h2, h3⟩ := destroyBlocks_spec (c := (p.head.span sizeofPool).whole) hok₁ hlive₂
    fun b hb => hI.sound.span_ok _ (List.mem_cons_of_mem _ (List.mem_map_of_mem hb))
  exact ⟨h1, h2, h3.trans hgot₁⟩

end Pool.Inv

/-! ## 3. Over whole runs

The ledger turns "as much is live as before" into "what was freed is what was obtained".  Nothing
more is needed about the run than that its invariant holds at the end, so the theorem covers runs
in which calls failed, at any point of `cw_palloc_large` too. -/

/-- When as much is live as before, what was freed since is what was obtained since. -/
theorem Heap.Ok.balance {h₀ h : Heap} (hok₀ : h₀.Ok) (hok : h.Ok) (hlive : h.live.Perm h₀.live)
    {mine : List Region} (hgot : h.got = mine ++ h₀.got) : h.freed.Perm (mine ++ h₀.freed) := by
  have hall : (h₀.live ++ h.freed).Perm (h₀.live ++ (mine ++ h₀.freed)) :=
    calc h₀.live ++ h.freed
        _ |>.Perm (h.live ++ h.freed) := hlive.symm.append_right _
        _ |>.Perm h.got := hok.ledger.symm
        _ |>.Perm (mine ++ h₀.got) := by rw [hgot]
        _ |>.Perm (mine ++ (h₀.live ++ h₀.freed)) := hok₀.ledger.append_left _
        _ |>.Perm (h₀.live ++ (mine ++ h₀.freed)) := List.perm_append_comm_assoc _ _ _
  exact (List.perm_append_left_iff _).mp hall

namespace PoolWorld

variable {A : Alignment} {size : Nat} {h : Heap} {w₀ w : PoolWorld}

/-- Every block header and every record of a large allocation lies in a live region. -/
structure Readable (w : PoolWorld) : Prop where
  head : ∃ c ∈ w.heap.live, Region.Inside ⟨w.pool.head.base, sizeofPool⟩ c
  rest : ∀ b ∈ w.pool.rest, ∃ c ∈ w.heap.live, Region.Inside ⟨b.base, sizeofPoolData⟩ c
  nodes : ∀ r ∈ w.pool.nodes, ∃ c ∈ w.heap.live, r.Inside c

theorem Inv.readable {psize : Nat} {wholes other : List Region}
    (hI : w.Inv A psize wholes other) : w.Readable where
  head := by
    obtain ⟨hmem, hin⟩ := hI.pool.header_live (s := w.pool.head.span sizeofPool) List.mem_cons_self
    exact ⟨_, hmem, by simpa [Span.header, Block.span] using hin⟩
  rest b hb := by
    obtain ⟨hmem, hin⟩ := hI.pool.header_live (s := b.span sizeofPoolData)
      (List.mem_cons_of_mem _ (List.mem_map_of_mem hb))
    exact ⟨_, hmem, by simpa [Span.header, Block.span] using hin⟩
  nodes r hr := by
    obtain ⟨c, hc, hin⟩ := hI.pool.nodes_in r hr
    exact ⟨c, hI.pool.chunk_mem (List.mem_append_left _ hc), hin⟩

/-- **Everything a pool obtains is released exactly once.**  For every pool made by
`cw_create_pool` and every sequence of calls: until the pool is destroyed its headers and records
can be read, and `cw_destroy_pool` frees each region obtained for the pool (`mine`) once, leaves
exactly what was live before, and reads nothing that is gone. -/
theorem reach_release (hok : h.Ok) (hge : sizeofPool ≤ size) (hdvd : A.bytes ∣ size)
    (hc : create size h = some w₀) (hr : Reach A w₀ w) :
    w.Readable ∧ (destroyPool w.pool w.heap).faults = [] ∧
      (destroyPool w.pool w.heap).live.Perm h.live ∧
      ∃ mine, (destroyPool w.pool w.heap).got = mine ++ h.got ∧
        (destroyPool w.pool w.heap).freed.Perm (mine ++ h.freed) := by
  obtain ⟨wholes, hinv⟩ := hr.inv (create_inv hok hge hdvd hc)
  obtain ⟨hok', hlive, hgot⟩ := hinv.pool.destroyPool
  have hstart : h.got <:+ w₀.heap.got := by
    have hcreate := got_createPool size h
    unfold create at hc
    split at hc
    · simp at hc
    · rename_i hp
      rw [hp] at hcreate
      simp only [Option.some.injEq] at hc
      subst hc
      exact hcreate
  obtain ⟨mine, hmine⟩ := hstart.trans hr.got
  refine ⟨hinv.readable, hok'.quiet, hlive, mine, by rw [hgot, hmine], ?_⟩
  exact hok.balance hok' hlive (by rw [hgot, hmine])

/-- The statement at the same pool: one block and one large allocation are released. -/
theorem reach_release_sample :
    ∃ w₀, create 1024 (Heap.fresh fun n => some (4096 * (n + 1))) = some w₀ ∧
      (w₀.run .word sampleCalls).Readable ∧
      (destroyPool (w₀.run .word sampleCalls).pool (w₀.run .word sampleCalls).heap).faults = [] ∧
      (destroyPool (w₀.run .word sampleCalls).pool
        (w₀.run .word sampleCalls).heap).live.Perm [] ∧
      ∃ mine, (destroyPool (w₀.run .word sampleCalls).pool
          (w₀.run .word sampleCalls).heap).got = mine ++ [] ∧
        (destroyPool (w₀.run .word sampleCalls).pool
          (w₀.run .word sampleCalls).heap).freed.Perm (mine ++ []) :=
  ⟨_, rfl,
    reach_release (h := Heap.fresh fun n => some (4096 * (n + 1)))
      (Heap.fresh_ok _) (show sizeofPool ≤ 1024 by decide) (by decide) rfl
      ((Reach.refl _).run (sampleCalls_admitted _ _))⟩

end PoolWorld

end Capwap
