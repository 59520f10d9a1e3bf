/-
# Arrays in a pool, and runs over a pool: `cw_array.c`

The array functions move the head block's `last` themselves: `cw_array_push` and
`cw_array_push_n` extend an array in place when its element area ends there, and
`cw_array_destroy` moves `last` back over the element area and then over the control block.

The second half of the file is the system the invariants are about: a pool, the heap under it,
the regions its clients hold, and the calls a client can make (`Op`).  `Reach` is the relation
"reachable by a sequence of such calls".
-/
import Capwap.Pool.Alloc

namespace Capwap

/-! ## 1. The array functions

An array lives in a pool and grows with the pool's help.  The code asks whether the element area
ends where the head block's `last` stands; if it does, and the block has room, moving `last` is all
that growing takes.  Otherwise the elements move to an area of twice the size, and the old area
stays in the pool, unused.

Only the head block is looked at (`p->d`, not `p->current->d`), so an array in one of the later
blocks always moves. -/

/-- `sizeof(cw_array_t)`: `elts`, `nelts`, `size`, `nalloc` and `pool`. -/
def sizeofArray : Nat := 40

/-- A `cw_array_t`; its `pool` is the pool it is passed with. -/
structure CwArray where
  elts : Nat
  nelts : Nat
  size : Nat
  nalloc : Nat
deriving DecidableEq, Repr

/-- The element area of an array, all of it: room for `nalloc` elements, whether they have been
pushed or not. -/
def CwArray.area (a : CwArray) : Region := ⟨a.elts, a.nalloc * a.size⟩

/-- The pool with the head block's `last` moved: `p->d.last = n`. -/
def Pool.setLast (p : Pool) (n : Nat) : Pool := { p with head := { p.head with last := n } }

/-- `cw_array_init`. -/
def arrayInit (A : Alignment) (pool : Pool) (n size : Nat) (h : Heap) :
    Option CwArray × Pool × Heap :=
  match palloc A pool (wmul n size) h with
  | (none, pool, h) => (none, pool, h)
  | (some elts, pool, h) =>
    (some { elts := elts, nelts := 0, size := size, nalloc := n }, pool, h)

/-- `cw_array_create`: the address of the control block and its contents.  When there is room for
the control block and none for the elements, the control block stays in the pool. -/
def arrayCreate (A : Alignment) (pool : Pool) (n size : Nat) (h : Heap) :
    Option (Nat × CwArray) × Pool × Heap :=
  match palloc A pool sizeofArray h with
  | (none, pool, h) => (none, pool, h)
  | (some self, pool, h) =>
    match arrayInit A pool n size h with
    | (none, pool, h) => (none, pool, h)
    | (some a, pool, h) => (some (self, a), pool, h)

/-- `cw_array_destroy`, for the control block at `self`. -/
def arrayDestroy (self : Nat) (a : CwArray) (p : Pool) : Pool :=
  let p := if wadd a.elts (wmul a.size a.nalloc) = p.head.last then
      p.setLast (wsub p.head.last (wmul a.size a.nalloc))
    else p
  if wadd self sizeofArray = p.head.last then p.setLast self else p

/-- `cw_array_push`: the slot of the new element, which the caller is to fill, or `NULL`.  A full
array grows by one element in place, or else to twice its capacity in a new area. -/
def arrayPush (A : Alignment) (a : CwArray) (p : Pool) (h : Heap) :
    Option Nat × CwArray × Pool × Heap :=
  if a.nelts = a.nalloc then
    let size := wmul a.size a.nalloc
    if wadd a.elts size = p.head.last ∧ wadd p.head.last a.size ≤ p.head.fin then
      (some (wadd a.elts (wmul a.size a.nelts)),
        { a with nalloc := wadd a.nalloc 1, nelts := wadd a.nelts 1 },
        p.setLast (wadd p.head.last a.size), h)
    else
      match palloc A p (wmul 2 size) h with
      | (none, p, h) => (none, a, p, h)
      | (some new, p, h) =>
        (some (wadd new (wmul a.size a.nelts)),
          { a with elts := new, nalloc := wmul a.nalloc 2, nelts := wadd a.nelts 1 },
          p, h.memcpy new a.elts size)
  else
    (some (wadd a.elts (wmul a.size a.nelts)), { a with nelts := wadd a.nelts 1 }, p, h)

/-- `cw_array_push_n`: the slot of the first of `n` elements.  It grows by `n` in place, or else to
twice the larger of `n` and the capacity. -/
def arrayPushN (A : Alignment) (a : CwArray) (n : Nat) (p : Pool) (h : Heap) :
    Option Nat × CwArray × Pool × Heap :=
  let size := wmul n a.size
  if wadd a.nelts n > a.nalloc then
    if wadd a.elts (wmul a.size a.nalloc) = p.head.last ∧ wadd p.head.last size ≤ p.head.fin then
      (some (wadd a.elts (wmul a.size a.nelts)),
        { a with nalloc := wadd a.nalloc n, nelts := wadd a.nelts n },
        p.setLast (wadd p.head.last size), h)
    else
      let nalloc := wmul 2 (if n ≥ a.nalloc then n else a.nalloc)
      match palloc A p (wmul nalloc a.size) h with
      | (none, p, h) => (none, a, p, h)
      | (some new, p, h) =>
        (some (wadd new (wmul a.size a.nelts)),
          { a with elts := new, nalloc := nalloc, nelts := wadd a.nelts n },
          p, h.memcpy new a.elts (wmul a.nelts a.size))
  else
    (some (wadd a.elts (wmul a.size a.nelts)), { a with nelts := wadd a.nelts n }, p, h)

/-! ## 2. A pool and its clients

The functions above work on one array at a time.  What the invariants are about is a pool over its
life: any number of clients call any of the functions in any order, and each goes on using what it
was given.  `PoolWorld` keeps what they were given, and `Reach` is where a sequence of such calls
leads. -/

/-- An array made by `cw_array_create` and not destroyed: its control block and contents. -/
structure LiveArray where
  self : Nat
  arr : CwArray
deriving DecidableEq, Repr

/-- The region of an array's control block. -/
def LiveArray.ctrl (a : LiveArray) : Region := ⟨a.self, sizeofArray⟩

/-- A pool, its heap, the plain regions handed out and the live arrays.  A plain region is never
taken out of the list: a client may use it as long as the pool lives. -/
structure PoolWorld where
  heap : Heap
  pool : Pool
  plain : List Region
  arrays : List LiveArray

/-- The calls of a client.  Arrays are named by their position among the live ones. -/
inductive PoolOp
  | palloc (size : Nat)
  | pnalloc (size : Nat)
  | pcalloc (size : Nat)
  | arrayCreate (n size : Nat)
  | arrayPush (i : Nat)
  | arrayPushN (i n : Nat)
  | arrayDestroy (i : Nat)
deriving DecidableEq, Repr

namespace PoolWorld

/-- A plain allocation: the region is the client's when there is one. -/
def handOut (w : PoolWorld) (size : Nat) (r : Option Nat × Pool × Heap) :
    Option Nat × PoolWorld :=
  match r with
  | (none, pool, heap) => (none, { w with pool := pool, heap := heap })
  | (some m, pool, heap) =>
    (some m, { w with pool := pool, heap := heap, plain := ⟨m, size⟩ :: w.plain })

/-- The call's effect and the pointer it returns.  A call that names no live array does
nothing. -/
def step (A : Alignment) (w : PoolWorld) : PoolOp → Option Nat × PoolWorld
  | .palloc size => w.handOut size (Capwap.palloc A w.pool size w.heap)
  | .pnalloc size => w.handOut size (Capwap.pnalloc A w.pool size w.heap)
  | .pcalloc size => w.handOut size (Capwap.pcalloc A w.pool size w.heap)
  | .arrayCreate n size =>
    match Capwap.arrayCreate A w.pool n size w.heap with
    | (none, pool, heap) => (none, { w with pool := pool, heap := heap })
    | (some (self, arr), pool, heap) =>
      (some self, { w with pool := pool, heap := heap, arrays := ⟨self, arr⟩ :: w.arrays })
  | .arrayPush i =>
    match w.arrays[i]? with
    | none => (none, w)
    | some a =>
      let r := Capwap.arrayPush A a.arr w.pool w.heap
      (r.1, { w with pool := r.2.2.1, heap := r.2.2.2,
                     arrays := w.arrays.set i { a with arr := r.2.1 } })
  | .arrayPushN i n =>
    match w.arrays[i]? with
    | none => (none, w)
    | some a =>
      let r := Capwap.arrayPushN A a.arr n w.pool w.heap
      (r.1, { w with pool := r.2.2.1, heap := r.2.2.2,
                     arrays := w.arrays.set i { a with arr := r.2.1 } })
  | .arrayDestroy i =>
    match w.arrays[i]? with
    | none => (none, w)
    | some a =>
      (none, { w with pool := Capwap.arrayDestroy a.self a.arr w.pool,
                      arrays := w.arrays.eraseIdx i })

/-- What a caller of each function has to respect: arguments are `size_t` values, counts and
element sizes are not zero, and the products of the growth formulas fit in `size_t`.  Of
`cw_array_push_n` these are both: `n * size`, and what it asks for when the array moves, which is
`2 * max(n, nalloc) * size` and the larger of the two. -/
def Admits (w : PoolWorld) : PoolOp → Prop
  | .palloc size => size < wordSize
  | .pnalloc size => size < wordSize
  | .pcalloc size => size < wordSize
  | .arrayCreate n size => 1 ≤ n ∧ 1 ≤ size ∧ n * size < wordSize
  | .arrayPush _ => True
  | .arrayPushN i n => 1 ≤ n ∧ ∀ a, w.arrays[i]? = some a →
      2 * max n a.arr.nalloc * a.arr.size < wordSize
  | .arrayDestroy _ => True

/-- Reachable by a sequence of calls within the callers' obligations, whatever the calls return. -/
inductive Reach (A : Alignment) : PoolWorld → PoolWorld → Prop
  | refl (w : PoolWorld) : Reach A w w
  | tail {w₀ w : PoolWorld} {op : PoolOp} :
      Reach A w₀ w → w.Admits op → Reach A w₀ (w.step A op).2

/-- The world after a list of calls. -/
def run (A : Alignment) (w : PoolWorld) (ops : List PoolOp) : PoolWorld :=
  ops.foldl (fun w op => (w.step A op).2) w

/-- A list of calls each of which respects the callers' obligations. -/
def AdmitsAll (A : Alignment) : PoolWorld → List PoolOp → Prop
  | _, [] => True
  | w, op :: ops => w.Admits op ∧ AdmitsAll A (w.step A op).2 ops

theorem Reach.run {A : Alignment} {w₀ : PoolWorld} : ∀ {ops : List PoolOp} {w : PoolWorld},
    Reach A w₀ w → AdmitsAll A w ops → Reach A w₀ (w.run A ops)
  | [], _, hr, _ => hr
  | _ :: _, _, hr, ⟨hop, hops⟩ => by
    have htail := Reach.run (hr.tail hop) hops
    exact htail

/-- Calls one after the other are admitted when the later ones are where the first ones lead. -/
theorem AdmitsAll.append {A : Alignment} : ∀ {ops ops' : List PoolOp} {w : PoolWorld},
    AdmitsAll A w ops → AdmitsAll A (w.run A ops) ops' → AdmitsAll A w (ops ++ ops')
  | [], _, _, _, h => h
  | _ :: _, _, _, ⟨hop, hops⟩, h => ⟨hop, hops.append h⟩

/-- A few calls that are admitted anywhere: an array that grows, and two allocations. -/
def sampleCalls : List PoolOp :=
  [.palloc 100, .arrayCreate 1 8, .arrayPush 0, .arrayPush 0, .palloc 2000]

theorem sampleCalls_admitted (A : Alignment) (w : PoolWorld) : AdmitsAll A w sampleCalls := by
  refine ⟨?_, ⟨?_, ?_, ?_⟩, trivial, trivial, ?_, trivial⟩ <;> simp [Admits, wordSize]

/-- The world right after `cw_create_pool`, when it succeeds. -/
def create (size : Nat) (h : Heap) : Option PoolWorld :=
  match createPool size h with
  | (none, _) => none
  | (some pool, heap) => some { heap := heap, pool := pool, plain := [], arrays := [] }

/-- What the clients hold: the plain allocations, the control blocks and element areas. -/
def held (w : PoolWorld) : List Region :=
  w.plain ++ w.arrays.flatMap fun a => [a.ctrl, a.arr.area]

end PoolWorld

/-- The regions of the pool's own `cw_pool_large_t` records. -/
def Pool.nodes (p : Pool) : List Region := p.large.map fun l => ⟨l.node, sizeofPoolLarge⟩

/-- Every region handed out and not destroyed, the pool's own records among them. -/
def PoolWorld.regions (w : PoolWorld) : List Region := w.pool.nodes ++ w.held

end Capwap
