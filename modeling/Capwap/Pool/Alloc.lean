/-
# The pool allocator: `cw_palloc.c` over `cw_alloc.c`

The model of the pool functions.  Addresses and sizes are natural numbers below `2 ^ 64`, and
every sum, difference or product the code forms is taken modulo `2 ^ 64`, as `size_t` and
pointer arithmetic do on an LP64 machine.

The system allocator is a stream of answers: the `k`-th call to `malloc` or `posix_memalign`
is answered by `answers k`, an address or `NULL`.  An answer that no correct allocator could
give (a misaligned or null address, a region that overlaps a live one or leaves the user half
of the address space) counts as a failure, so that every stream is a legal allocator and every
pattern of successes and failures is some stream.

What is kept of a region is where it lies; the bytes are one function from addresses.  The
pool's own records (`cw_pool_t`, `cw_pool_data_t`, `cw_pool_large_t`) are kept as records next
to the bytes; that no region handed out overlaps one of them is what `Spatial.lean` proves.
`chain`, `cleanup` and `log` are left out: no function of the repository sets them after
`cw_create_pool`.
-/
import Capwap.Lib.Arena
import Mathlib.Algebra.Group.Nat.Defs

namespace Capwap

/-! ## 1. Machine words

`size_t` and pointers are 64 bits wide, and the code adds, subtracts and multiplies them without
looking whether they wrap.  The functions of the model compute with `wadd`, `wsub` and `wmul`
wherever the source has an operator, so a bound on a product is never assumed where a function is
defined; it is proved, where it holds, from the invariant. -/

/-- The number of values of a `size_t` or a pointer. -/
def wordSize : Nat := 2 ^ 64

/-- Addition of two words. -/
def wadd (a b : Nat) : Nat := (a + b) % wordSize

/-- Subtraction of two words.  It wraps when the second is larger, as `p->d.end - m` does once
aligning has taken `m` behind the end of a block. -/
def wsub (a b : Nat) : Nat := (a + wordSize - b) % wordSize

/-- Multiplication of two words. -/
def wmul (a b : Nat) : Nat := a * b % wordSize

theorem wadd_eq {a b : Nat} (h : a + b < wordSize) : wadd a b = a + b := Nat.mod_eq_of_lt h

theorem wmul_eq {a b : Nat} (h : a * b < wordSize) : wmul a b = a * b := Nat.mod_eq_of_lt h

theorem wsub_eq {a b : Nat} (hba : b ≤ a) (ha : a < wordSize) : wsub a b = a - b := by
  unfold wsub
  rw [show a + wordSize - b = (a - b) + wordSize by omega, Nat.add_mod_right]
  exact Nat.mod_eq_of_lt (by omega)

/-- `CW_ALIGNMENT`: the platform word, or 16 where `auto/os/conf` says so. -/
inductive Alignment
  | word
  | sixteen
deriving DecidableEq, Repr

/-- The alignment in bytes. -/
def Alignment.bytes : Alignment → Nat
  | .word => 8
  | .sixteen => 16

theorem Alignment.bytes_pos (A : Alignment) : 0 < A.bytes := by cases A <;> decide

theorem Alignment.bytes_le (A : Alignment) : A.bytes ≤ 16 := by cases A <;> decide

theorem Alignment.bytes_dvd (A : Alignment) : A.bytes ∣ 16 := by cases A <;> decide

/-- `cw_align_ptr`.  Clearing the low bits of a power of two is taking the remainder off; the sum
in front of it may wrap like any other. -/
def alignPtr (p a : Nat) : Nat :=
  let q := wadd p (a - 1)
  q - q % a

/-- Below the top of the address space, aligning moves up, by less than the alignment. -/
theorem alignPtr_spec {p a : Nat} (ha : 0 < a) (hp : p + (a - 1) < wordSize) :
    p ≤ alignPtr p a ∧ alignPtr p a < p + a ∧ a ∣ alignPtr p a := by
  have hlt : (p + (a - 1)) % a < a := Nat.mod_lt _ ha
  simp only [alignPtr, wadd_eq hp]
  exact ⟨by omega, by omega, Nat.dvd_sub_mod _⟩

/-- Aligning never passes an aligned address that was not passed before. -/
theorem alignPtr_le {p a e : Nat} (ha : 0 < a) (hp : p + (a - 1) < wordSize) (hpe : p ≤ e)
    (hdvd : a ∣ e) : alignPtr p a ≤ e := by
  obtain ⟨h1, h2, k, hk⟩ := alignPtr_spec ha hp
  obtain ⟨j, rfl⟩ := hdvd
  rw [hk] at h2 ⊢
  refine Nat.mul_le_mul_left a ?_
  by_contra hjk
  have : a * (j + 1) ≤ a * k := Nat.mul_le_mul_left a (by omega)
  rw [Nat.mul_add, Nat.mul_one] at this
  omega

/-- An aligned address stays where it is. -/
theorem alignPtr_of_dvd {p a : Nat} (ha : 0 < a) (hp : p + (a - 1) < wordSize) (hdvd : a ∣ p) :
    alignPtr p a = p :=
  Nat.le_antisymm (alignPtr_le ha hp (Nat.le_refl p) hdvd) (alignPtr_spec ha hp).1

/-! ## 2. The system allocator

One stream of answers stands for all that `malloc` and `posix_memalign` may do.  The calls are
numbered as they are made, so a theorem about every stream is one about every pattern of successes
and failures, and about every place a correct allocator may choose.  The heap records what went
wrong instead of stopping: a client that frees a region twice goes on, with a fault in the list,
and the theorems say that the list stays empty. -/

/-- The end of the user half of the address space: no object reaches past `PTRDIFF_MAX`. -/
def userTop : Nat := 2 ^ 63

/-- What the heap can complain about: nothing of this happens in a correct program, and nothing of
it stops the model. -/
inductive HeapFault
  /-- `free` of an address where no live region starts -/
  | badFree (addr : Nat)
  /-- a read of bytes that lie in no live region -/
  | badRead (r : Region)
deriving DecidableEq, Repr

/-- The system heap: the live regions, every region obtained and every region released so
far, the complaints, the bytes, and the answers to come. -/
structure Heap where
  live : List Region
  got : List Region
  freed : List Region
  faults : List HeapFault
  bytes : Nat → UInt8
  answers : Nat → Option Nat
  calls : Nat

namespace Heap

/-- Whether an allocator may answer a request for `size` bytes with `addr`: a 16-aligned address
other than 0, from which the region ends in the user half and is apart from every live one. -/
def Grants (h : Heap) (addr size : Nat) : Prop :=
  0 < addr ∧ 16 ∣ addr ∧ addr + size ≤ userTop ∧ ∀ r ∈ h.live, r.Apart ⟨addr, size⟩

instance (h : Heap) (addr size : Nat) : Decidable (h.Grants addr size) :=
  inferInstanceAs (Decidable (_ ∧ _))

/-- One call to `malloc` or `posix_memalign` for `size` bytes.  An answer that no allocator could
give counts as a failure. -/
def request (h : Heap) (size : Nat) : Option Nat × Heap :=
  match h.answers h.calls with
  | none => (none, { h with calls := h.calls + 1 })
  | some addr =>
    if h.Grants addr size then
      (some addr, { h with
        live := ⟨addr, size⟩ :: h.live
        got := ⟨addr, size⟩ :: h.got
        calls := h.calls + 1 })
    else (none, { h with calls := h.calls + 1 })

/-- `free`.  What was obtained last is found first, if two live regions should have one base, as
two empty ones may. -/
def free (h : Heap) (addr : Nat) : Heap :=
  match h.live.find? (fun r => r.base = addr) with
  | some r => { h with live := h.live.erase r, freed := r :: h.freed }
  | none => { h with faults := .badFree addr :: h.faults }

/-- A read of the bytes of `r`.  It changes nothing, and is a fault unless `r` lies in a live
region. -/
def read (h : Heap) (r : Region) : Heap :=
  if ∃ c ∈ h.live, r.Inside c then h else { h with faults := .badRead r :: h.faults }

/-- `memset(p, 0, n)`. -/
def memzero (h : Heap) (p n : Nat) : Heap :=
  { h with bytes := fun x => if p ≤ x ∧ x < p + n then 0 else h.bytes x }

/-- `memcpy(dst, src, n)`. -/
def memcpy (h : Heap) (dst src n : Nat) : Heap :=
  { h with
    bytes := fun x => if dst ≤ x ∧ x < dst + n then h.bytes (src + (x - dst)) else h.bytes x }

end Heap

/-- `cw_alloc`. -/
def cwAlloc (size : Nat) (h : Heap) : Option Nat × Heap := h.request size

/-- `cw_memalign`; the only alignment asked for is `CW_POOL_ALIGNMENT`, 16. -/
def cwMemalign (size : Nat) (h : Heap) : Option Nat × Heap := h.request size

/-! ## 3. Pools

A pool is a chain of blocks of one size.  The first also holds the pool's own record and so has the
longer header; the others hold a `cw_pool_data_t`.  An allocation of at most `max` bytes is carved
from the first block, from `current` on, that has room for it, and a block is added when none has;
a larger one is the system's, with a `cw_pool_large_t` for it carved from the blocks like any small
allocation.

The functions below follow the source statement by statement: its loops are recursions on the chain
or on the list of records, and each takes the heap and returns it, with the pool. -/

/-- `sizeof(cw_pool_t)`: `cw_pool_data_t`, then `max`, `current`, `chain`, `large`, `cleanup`
and `log`. -/
def sizeofPool : Nat := 80

/-- `sizeof(cw_pool_data_t)`: `last`, `end`, `next` and `failed`. -/
def sizeofPoolData : Nat := 32

/-- `sizeof(cw_pool_large_t)`: `next` and `alloc`. -/
def sizeofPoolLarge : Nat := 16

/-- `CW_MAX_ALLOC_FROM_POOL`. -/
def maxAllocFromPool : Nat := 1024 - 1

/-- One block: where it starts and its `cw_pool_data_t`, whose `next` is the next block of
the list. -/
structure Block where
  base : Nat
  last : Nat
  fin : Nat
  failed : Nat
deriving DecidableEq, Repr

/-- One `cw_pool_large_t`: where the record lies, and its `alloc`. -/
structure Large where
  node : Nat
  alloc : Option Nat
deriving DecidableEq, Repr

/-- A pool: the head block, the later blocks, `max`, the position of `current` in the chain of
blocks, and the list of large allocations.  `current` is a pointer in the source; a position says
the same, since blocks are only ever added at the end. -/
structure Pool where
  head : Block
  rest : List Block
  max : Nat
  current : Nat
  large : List Large
deriving DecidableEq, Repr

namespace Pool

/-- The chain of blocks from the pool's own address on. -/
def blocks (p : Pool) : List Block := p.head :: p.rest

/-- The pool with another chain of blocks; a chain is never empty. -/
def withBlocks (p : Pool) : List Block → Pool
  | [] => p
  | b :: bs => { p with head := b, rest := bs }

end Pool

/-- `cw_create_pool`. -/
def createPool (size : Nat) (h : Heap) : Option Pool × Heap :=
  match cwMemalign size h with
  | (none, h) => (none, h)
  | (some p, h) =>
    let head : Block := { base := p, last := wadd p sizeofPool, fin := wadd p size, failed := 0 }
    let size := wsub size sizeofPool
    (some { head := head
            rest := []
            max := if size < maxAllocFromPool then size else maxAllocFromPool
            current := 0
            large := [] }, h)

/-- The `do ... while` loop of `cw_palloc_small` over the blocks from `current` on: where the
region begins, and the blocks with the `last` of one of them moved.  The test
`(size_t) (p->d.end - m) >= size` is made on words. -/
def searchSmall (A : Alignment) (size : Nat) (align : Bool) :
    List Block → Option (Nat × List Block)
  | [] => none
  | b :: bs =>
    let m := if align then alignPtr b.last A.bytes else b.last
    if size ≤ wsub b.fin m then some (m, { b with last := wadd m size } :: bs)
    else (searchSmall A size align bs).map fun r => (r.1, b :: r.2)

/-- The loop of `cw_palloc_block` that looks for the end of the chain: every block but the
last counts a failure, and `current` moves past a block that had failed more than 4 times.
`i` is the position of the first block of the list. -/
def countFailures (i cur : Nat) : List Block → List Block × Nat
  | [] => ([], cur)
  | [b] => ([b], cur)
  | b :: c :: bs =>
    let cur := if b.failed > 4 then i + 1 else cur
    let r := countFailures (i + 1) cur (c :: bs)
    ({ b with failed := b.failed + 1 } :: r.1, r.2)

/-- `cw_palloc_block`.  The new block is as large as the head, and its region is carved from it at
once; the failures are counted only when there is a new block. -/
def pallocBlock (A : Alignment) (pool : Pool) (size : Nat) (h : Heap) :
    Option Nat × Pool × Heap :=
  let psize := wsub pool.head.fin pool.head.base
  match cwMemalign psize h with
  | (none, h) => (none, pool, h)
  | (some base, h) =>
    let m := alignPtr (wadd base sizeofPoolData) A.bytes
    let new : Block := { base := base, last := wadd m size, fin := wadd base psize, failed := 0 }
    let r := countFailures pool.current pool.current (pool.blocks.drop pool.current)
    (some m,
      { pool.withBlocks (pool.blocks.take pool.current ++ r.1 ++ [new]) with current := r.2 }, h)

/-- `cw_palloc_small`. -/
def pallocSmall (A : Alignment) (pool : Pool) (size : Nat) (align : Bool) (h : Heap) :
    Option Nat × Pool × Heap :=
  match searchSmall A size align (pool.blocks.drop pool.current) with
  | some (m, bs) => (some m, pool.withBlocks (pool.blocks.take pool.current ++ bs), h)
  | none => pallocBlock A pool size h

/-- The loop of `cw_palloc_large` over the first records of the list: an empty one takes the
new allocation. -/
def reuseLarge (p : Nat) : Nat → List Large → Option (List Large)
  | _, [] => none
  | n, l :: ls =>
    if l.alloc = none then some ({ l with alloc := some p } :: ls)
    else if n > 3 then none
    else (reuseLarge p (n + 1) ls).map (l :: ·)

/-- `cw_palloc_large`.  The memory is obtained first and the record second, so a failure at the
record has something to give back. -/
def pallocLarge (A : Alignment) (pool : Pool) (size : Nat) (h : Heap) :
    Option Nat × Pool × Heap :=
  match cwAlloc size h with
  | (none, h) => (none, pool, h)
  | (some p, h) =>
    match reuseLarge p 0 pool.large with
    | some large => (some p, { pool with large := large }, h)
    | none =>
      match pallocSmall A pool sizeofPoolLarge true h with
      | (none, pool, h) => (none, pool, h.free p)
      | (some node, pool, h) =>
        (some p, { pool with large := { node := node, alloc := some p } :: pool.large }, h)

/-- `cw_palloc`. -/
def palloc (A : Alignment) (pool : Pool) (size : Nat) (h : Heap) : Option Nat × Pool × Heap :=
  if size ≤ pool.max then pallocSmall A pool size true h else pallocLarge A pool size h

/-- `cw_pnalloc`, without `CW_DEBUG_PALLOC`. -/
def pnalloc (A : Alignment) (pool : Pool) (size : Nat) (h : Heap) : Option Nat × Pool × Heap :=
  if size ≤ pool.max then pallocSmall A pool size false h else pallocLarge A pool size h

/-- `cw_pcalloc`. -/
def pcalloc (A : Alignment) (pool : Pool) (size : Nat) (h : Heap) : Option Nat × Pool × Heap :=
  match palloc A pool size h with
  | (some p, pool, h) => (some p, pool, h.memzero p size)
  | (none, pool, h) => (none, pool, h)

/-- The first loop of `cw_destroy_pool`: each record is read for `alloc`, its allocation
freed, and the record read again for `next`. -/
def destroyLarge : List Large → Heap → Heap
  | [], h => h
  | l :: ls, h =>
    let h := h.read ⟨l.node, sizeofPoolLarge⟩
    let h := match l.alloc with
      | some p => h.free p
      | none => h
    destroyLarge ls (h.read ⟨l.node, sizeofPoolLarge⟩)

/-- The second loop of `cw_destroy_pool`, with `p` to be freed and the blocks from `n` on:
after freeing `p`, the header of `n` is read for its `next`. -/
def destroyBlocks (p : Nat) : List Block → Heap → Heap
  | [], h => h.free p
  | n :: bs, h => destroyBlocks n.base bs ((h.free p).read ⟨n.base, sizeofPoolData⟩)

/-- `cw_destroy_pool`.  The head's header is read for `large` and for `d.next`, and it must be read
before the head is freed. -/
def destroyPool (pool : Pool) (h : Heap) : Heap :=
  let h := destroyLarge pool.large (h.read ⟨pool.head.base, sizeofPool⟩)
  destroyBlocks pool.head.base pool.rest (h.read ⟨pool.head.base, sizeofPool⟩)

/-! ## 4. The heap keeps its ledger

What is obtained is live until it is freed, once.  `Heap.Ok` says so of the whole past of a heap,
with what was obtained against what is live or freed as lists up to order, so that a region
obtained twice at one address is counted twice. -/

/-- What holds of a heap that has been used correctly so far.  No fault is recorded, the live
regions are apart, not empty and granted as an allocator may, and the ledger balances. -/
structure Heap.Ok (h : Heap) : Prop where
  granted : ∀ r ∈ h.live, 0 < r.base ∧ 16 ∣ r.base ∧ r.stop ≤ userTop
  pos : ∀ r ∈ h.live, 0 < r.size
  apart : h.live.Pairwise Region.Apart
  ledger : h.got.Perm (h.live ++ h.freed)
  quiet : h.faults = []

/-- A heap nothing has been requested from yet. -/
def Heap.fresh (answers : Nat → Option Nat) : Heap :=
  { live := [], got := [], freed := [], faults := [], bytes := fun _ => 0, answers := answers,
    calls := 0 }

theorem Heap.fresh_ok (answers : Nat → Option Nat) : (Heap.fresh answers).Ok :=
  ⟨by simp [Heap.fresh], by simp [Heap.fresh], by simp [Heap.fresh], by simp [Heap.fresh], rfl⟩

namespace Heap

/-- A failed request only uses an answer up. -/
theorem request_none {h h' : Heap} {size : Nat} (hr : h.request size = (none, h')) :
    h' = { h with calls := h.calls + 1 } := by
  unfold request at hr
  split at hr
  · exact (congrArg Prod.snd hr).symm
  · split at hr
    · exact absurd (congrArg Prod.fst hr) (by simp)
    · exact (congrArg Prod.snd hr).symm

/-- A successful request yields a granted region and changes nothing but the ledger. -/
theorem request_some {h h' : Heap} {size p : Nat} (hr : h.request size = (some p, h')) :
    h.Grants p size ∧ h' = { h with
      live := ⟨p, size⟩ :: h.live, got := ⟨p, size⟩ :: h.got, calls := h.calls + 1 } := by
  unfold request at hr
  split at hr
  · exact absurd (congrArg Prod.fst hr) (by simp)
  · split at hr
    · rename_i hg
      have hp := Option.some.inj (congrArg Prod.fst hr)
      have hh := (congrArg Prod.snd hr).symm
      simp only at hp hh
      subst hp
      exact ⟨hg, hh⟩
    · exact absurd (congrArg Prod.fst hr) (by simp)

theorem Ok.use {h : Heap} (hok : h.Ok) : Ok { h with calls := h.calls + 1 } :=
  ⟨hok.granted, hok.pos, hok.apart, hok.ledger, hok.quiet⟩

/-- The ledger says nothing about the bytes. -/
theorem Ok.withBytes {h : Heap} (hok : h.Ok) (bytes : Nat → UInt8) :
    Ok { h with bytes := bytes } :=
  ⟨hok.granted, hok.pos, hok.apart, hok.ledger, hok.quiet⟩

/-- A successful request keeps the ledger. -/
theorem Ok.request {h h' : Heap} (hok : h.Ok) {size p : Nat} (hpos : 0 < size)
    (hr : h.request size = (some p, h')) : h'.Ok := by
  obtain ⟨⟨h0, h16, htop, hap⟩, rfl⟩ := request_some hr
  refine ⟨?_, ?_, ?_, ?_, hok.quiet⟩
  · intro r hr
    rcases List.mem_cons.mp hr with rfl | hr
    · exact ⟨h0, h16, htop⟩
    · exact hok.granted r hr
  · intro r hr
    rcases List.mem_cons.mp hr with rfl | hr
    · exact hpos
    · exact hok.pos r hr
  · exact List.pairwise_cons.mpr ⟨fun r hr => (hap r hr).symm, hok.apart⟩
  · exact hok.ledger.cons _

/-- Two live regions with one base are the same region. -/
theorem Ok.base_inj {h : Heap} (hok : h.Ok) {r s : Region} (hr : r ∈ h.live) (hs : s ∈ h.live)
    (hb : r.base = s.base) : r = s := by
  by_contra hne
  have hap := hok.apart.forall hr hs hne
  have h1 := hok.pos r hr
  have h2 := hok.pos s hs
  unfold Region.Apart Region.stop at hap
  omega

/-- `free` of a live region releases exactly that region: no other live region has its base, so the
one that is found is the one that was meant. -/
theorem Ok.free_eq {h : Heap} (hok : h.Ok) {r : Region} (hr : r ∈ h.live) :
    h.free r.base = { h with live := h.live.erase r, freed := r :: h.freed } := by
  unfold free
  cases hf : h.live.find? (fun s => s.base = r.base) with
  | none =>
    have := List.find?_eq_none.mp hf r hr
    simp at this
  | some s =>
    have hs : s ∈ h.live := List.mem_of_find?_eq_some hf
    have hb : s.base = r.base := by simpa using List.find?_some hf
    rw [hok.base_inj hs hr hb]

/-- ...and keeps the ledger. -/
theorem Ok.free {h : Heap} (hok : h.Ok) {r : Region} (hr : r ∈ h.live) : (h.free r.base).Ok := by
  rw [hok.free_eq hr]
  have hsub : ∀ s ∈ h.live.erase r, s ∈ h.live := fun s hs => List.mem_of_mem_erase hs
  refine ⟨fun s hs => hok.granted s (hsub s hs), fun s hs => hok.pos s (hsub s hs),
    hok.apart.sublist List.erase_sublist, ?_, hok.quiet⟩
  have h1 : h.live.Perm (r :: h.live.erase r) := List.perm_cons_erase hr
  calc h.got
      _ |>.Perm (h.live ++ h.freed) := hok.ledger
      _ |>.Perm ((r :: h.live.erase r) ++ h.freed) := h1.append_right _
      _ |>.Perm (h.live.erase r ++ r :: h.freed) := List.perm_middle.symm

/-- A read inside a live region is silent. -/
theorem read_eq {h : Heap} {r c : Region} (hc : c ∈ h.live) (hin : r.Inside c) :
    h.read r = h := by
  unfold read
  rw [if_pos ⟨c, hc, hin⟩]

end Heap

end Capwap
