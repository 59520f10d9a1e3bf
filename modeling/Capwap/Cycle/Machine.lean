/-
# The machine under `cw_init_cycle`

A cycle is set up over the system heap, the kernel's descriptors and the global `environ` (the
`Host`).  On top of these are the cycle's pool, the temporary pool of the configuration phase, and
the listening sockets (`Machine`).  `Machine.sys` is what the parser asks of the system, over a
machine: its buffers come from the heap, and `cf->args` and its words live in the cycle's pool.

The kernel keeps a ledger of descriptors as the heap does of regions: what is open, what was ever
opened and what was closed.  `Machine.Held` says that a machine holds, on top of what its host had,
its pools, some buffers and some descriptors, and nothing else; every call keeps it
(`Machine.disciplined`), and so does module code that only uses the pools (`Machine.Uses`).
-/
import Capwap.Pool.Release
import Capwap.Conf.Core
import Capwap.Conf.Resources
import Mathlib.Data.List.Rotate

namespace Capwap

/-! ## 1. Descriptors

The kernel is treated as the heap was in `Pool/Alloc.lean`.  It answers calls in an order that is
fixed from outside, by any sequence of answers, and it keeps a ledger: what is open, and all that
was ever opened and closed.  A close of a descriptor that is not open is a fault, and is written
down as such. -/

/-- What the system answers to a call, whichever it is: the descriptor of `open` or `socket`,
whether the call succeeds, whether `errno` is `EADDRINUSE` if it does not, the size `fstat` leaves
behind, and the bytes of `pread`. -/
structure Answer where
  fd : Int
  ok : Bool
  inUse : Bool
  size : Nat
  bytes : Option (List UInt8)

/-- The kernel: the open descriptors, every descriptor opened and every one closed so far, the
closes of a descriptor that was not open, and the answers to come.  `calls` counts the calls, and
is the index of the next answer. -/
structure Kernel where
  live : List Int
  got : List Int
  closed : List Int
  faults : List Int
  answers : Nat → Answer
  calls : Nat

namespace Kernel

/-- The answer to the next call. -/
def answer (k : Kernel) : Answer := k.answers k.calls

/-- A call has been answered. -/
def ask (k : Kernel) : Kernel := { k with calls := k.calls + 1 }

/-- `open` or `socket`.  A negative answer, and one that is open already, is a failure. -/
def openFd (k : Kernel) : Int × Kernel :=
  if 0 ≤ k.answer.fd ∧ k.answer.fd ∉ k.live then
    (k.answer.fd, { k.ask with live := k.answer.fd :: k.live, got := k.answer.fd :: k.got })
  else (-1, k.ask)

/-- `close`.  Whatever it answers, the descriptor is closed. -/
def closeFd (k : Kernel) (fd : Int) : Bool × Kernel :=
  if fd ∈ k.live then
    (k.answer.ok, { k.ask with live := k.live.erase fd, closed := fd :: k.closed })
  else (false, { k.ask with faults := fd :: k.faults })

/-- What holds of a kernel that has been used correctly so far: what was opened is what is open and
what was closed, and there has been no fault. -/
structure Ok (k : Kernel) : Prop where
  ledger : k.got.Perm (k.live ++ k.closed)
  quiet : k.faults = []

theorem Ok.ask {k : Kernel} (h : k.Ok) : k.ask.Ok := ⟨h.ledger, h.quiet⟩

/-- A failing `open` only uses an answer up. -/
theorem openFd_failed {k : Kernel} (h : k.openFd.1 = -1) : k.openFd.2 = k.ask := by
  unfold openFd at h ⊢
  split at h
  · rename_i hfd
    simp only at h
    omega
  · rename_i hfd
    rw [if_neg hfd]

/-- A successful one puts one descriptor into the ledger. -/
theorem openFd_ok {k : Kernel} (h : k.openFd.1 ≠ -1) :
    k.openFd.2 = { k.ask with live := k.openFd.1 :: k.live, got := k.openFd.1 :: k.got } := by
  unfold openFd at h ⊢
  split at h
  · rename_i hfd
    simp only [if_pos hfd]
  · exact absurd rfl h

/-- Closing an open descriptor. -/
theorem closeFd_live {k : Kernel} {fd : Int} (h : fd ∈ k.live) : (k.closeFd fd).2
    = { k.ask with live := k.live.erase fd, closed := fd :: k.closed } := by
  unfold closeFd
  rw [if_pos h]

theorem Ok.openFd {k : Kernel} (hk : k.Ok) : k.openFd.2.Ok := by
  by_cases h : k.openFd.1 = -1
  · rw [openFd_failed h]
    exact hk.ask
  · rw [openFd_ok h]
    exact ⟨hk.ledger.cons _, hk.quiet⟩

theorem Ok.closeFd {k : Kernel} (hk : k.Ok) {fd : Int} (h : fd ∈ k.live) :
    (k.closeFd fd).2.Ok := by
  rw [closeFd_live h]
  refine ⟨?_, hk.quiet⟩
  calc k.got
      _ |>.Perm (k.live ++ k.closed) := hk.ledger
      _ |>.Perm ((fd :: k.live.erase fd) ++ k.closed) := (List.perm_cons_erase h).append_right _
      _ |>.Perm (k.live.erase fd ++ fd :: k.closed) := List.perm_middle.symm

/-- When as many are open as before, what was closed since is what was opened since: the two
ledgers are compared, and the open descriptors cancel. -/
theorem Ok.balance {k₀ k : Kernel} (h₀ : k₀.Ok) (h : k.Ok) (hlive : k.live = k₀.live)
    {mine : List Int} (hgot : k.got = mine ++ k₀.got) : k.closed.Perm (mine ++ k₀.closed) := by
  have hall : (k₀.live ++ k.closed).Perm (k₀.live ++ (mine ++ k₀.closed)) :=
    calc k₀.live ++ k.closed
        _ |>.Perm k.got := by rw [← hlive]; exact h.ledger.symm
        _ |>.Perm (mine ++ k₀.got) := by rw [hgot]
        _ |>.Perm (mine ++ (k₀.live ++ k₀.closed)) := h₀.ledger.append_left _
        _ |>.Perm (k₀.live ++ (mine ++ k₀.closed)) := List.perm_append_comm_assoc _ _ _
  exact (List.perm_append_left_iff _).mp hall

/-- A kernel `k` on which the descriptors `fds` are held on top of what `k₀` had. -/
structure Over (k₀ : Kernel) (fds : List Int) (k : Kernel) : Prop where
  ok : k.Ok
  live : k.live = fds ++ k₀.live
  got : k₀.got <:+ k.got

variable {k₀ k : Kernel} {fds : List Int}

theorem Over.ask (h : Over k₀ fds k) : Over k₀ fds k.ask := ⟨h.ok.ask, h.live, h.got⟩

theorem Over.openFailed (h : Over k₀ fds k) (hfd : k.openFd.1 = -1) : Over k₀ fds k.openFd.2 := by
  rw [openFd_failed hfd]
  exact h.ask

theorem Over.openFd (h : Over k₀ fds k) (hfd : k.openFd.1 ≠ -1) :
    Over k₀ (k.openFd.1 :: fds) k.openFd.2 := by
  refine ⟨h.ok.openFd, ?_, ?_⟩ <;> rw [openFd_ok hfd]
  · exact congrArg _ h.live
  · exact h.got.trans (List.suffix_cons _ _)

theorem Over.closeFd {fd : Int} (h : Over k₀ (fd :: fds) k) : Over k₀ fds (k.closeFd fd).2 := by
  have hlive : k.live = fd :: (fds ++ k₀.live) := h.live
  have hmem : fd ∈ k.live := hlive ▸ List.mem_cons_self
  refine ⟨h.ok.closeFd hmem, ?_, ?_⟩ <;> rw [closeFd_live hmem]
  · simp only [hlive, List.erase_cons_head]
  · exact h.got

end Kernel

/-! ## 2. The machine

A pool comes with what it has handed out, since the caller's obligations are about these: which
arrays there are, and where a plain region lies.  The heap is not part of a pool but under both, so
that one pool cannot be given what the other holds. -/

/-- A call into a module: its index, what `create_conf` returned or the configuration `init_conf`
was given, and for `set` the command's type, the view and the argument `conf`. -/
inductive ModuleCall
  | createConf (index : Nat) (rv : Option Nat)
  | initConf (index : Nat) (conf : Nat)
  | set (index : Nat) (type : Nat) (view : View) (conf : Nat)
  | custom (handler : Nat)
deriving DecidableEq, Repr

/-- What `cw_init_cycle` finds: the heap, the kernel, and `environ`, an address or 0.  The calls
into modules so far, the last one first, are a history that no function reads. -/
structure Host where
  heap : Heap
  kernel : Kernel
  environ : Nat
  calls : List ModuleCall

/-- A pool, the plain regions it has handed out and the arrays in it. -/
structure Holdings where
  pool : Pool
  plain : List Region
  arrays : List LiveArray

/-- The pool over a heap. -/
def Holdings.world (x : Holdings) (h : Heap) : PoolWorld :=
  { heap := h, pool := x.pool, plain := x.plain, arrays := x.arrays }

/-- What a pool call leaves, without the heap. -/
def PoolWorld.holdings (w : PoolWorld) : Holdings :=
  { pool := w.pool, plain := w.plain, arrays := w.arrays }

/-- `cw_listening_t`, as far as `cw_open_listening_sockets` reads and sets it; `stream` is
`type == SOCK_STREAM`. -/
structure Listening where
  fd : Int
  ignore : Bool
  stream : Bool
  listen : Bool
deriving DecidableEq, Repr

/-- A host with the cycle's pool, the temporary pool once there is one, and `cycle->listening`.
The last array of the cycle's pool is `conf.args`, once there is one. -/
structure Machine extends Host where
  main : Holdings
  temp : Option Holdings
  listening : List Listening

namespace Machine

variable (A : Alignment)

/-- A call on the cycle's pool. -/
def call (m : Machine) (op : PoolOp) : Option Nat × Machine :=
  let r := (m.main.world m.heap).step A op
  (r.1, { m with heap := r.2.heap, main := r.2.holdings })

/-- A call on the temporary pool `t`. -/
def callTemp (m : Machine) (t : Holdings) (op : PoolOp) : Option Nat × Machine :=
  let r := (t.world m.heap).step A op
  (r.1, { m with heap := r.2.heap, temp := some r.2.holdings })

/-- A call into a module is made. -/
def record (m : Machine) (c : ModuleCall) : Machine := { m with calls := c :: m.calls }

/-- `args->nelts = 0`, for the last of some arrays. -/
def clearLast : List LiveArray → List LiveArray
  | [] => []
  | [a] => [{ a with arr := { a.arr with nelts := 0 } }]
  | a :: b :: as => a :: clearLast (b :: as)

/-- The system, over a machine.  A buffer of the parser is a region of the heap, a file is a
descriptor, and the words of a directive are allocated in the cycle's pool; handlers' pointers are
loaded one level above. -/
def sys : Sys Machine where
  openFile _ m := (m.kernel.openFd.1, { m with kernel := m.kernel.openFd.2 })
  fdInfo _ m :=
    ((m.kernel.answer.ok, m.kernel.answer.size), { m with kernel := m.kernel.ask })
  alloc n m := ((cwAlloc n m.heap).1, { m with heap := (cwAlloc n m.heap).2 })
  free p m := { m with heap := m.heap.free p }
  pread _ n _ m := (m.kernel.answer.bytes.map (List.take n), { m with kernel := m.kernel.ask })
  closeFile fd m := ((m.kernel.closeFd fd).1, { m with kernel := (m.kernel.closeFd fd).2 })
  clearArgs m := { m with main := { m.main with arrays := clearLast m.main.arrays } }
  arrayPush m :=
    let r := m.call A (.arrayPush (m.main.arrays.length - 1))
    (r.1.isSome, r.2)
  pnalloc n m :=
    let r := m.call A (.pnalloc (n % wordSize))
    (r.1.isSome, r.2)
  load _ _ := 0

/-- What module code may do to a machine: call the pools, within the callers' obligations and
without destroying `conf.args`, which exists when the temporary pool does, and set up listening
sockets. -/
inductive Uses : Machine → Machine → Prop
  | refl (m : Machine) : Uses m m
  | main {m m' : Machine} {op : PoolOp} (h : Uses m m')
      (hop : (m'.main.world m'.heap).Admits op)
      (hargs : m'.temp ≠ none → op ≠ .arrayDestroy (m'.main.arrays.length - 1)) :
      Uses m (m'.call A op).2
  | temp {m m' : Machine} {t : Holdings} {op : PoolOp} (h : Uses m m') (ht : m'.temp = some t)
      (hop : (t.world m'.heap).Admits op) : Uses m (m'.callTemp A t op).2
  | listen {m m' : Machine} (h : Uses m m') (ls : List Listening) :
      Uses m { m' with listening := ls }

end Machine

/-! ## 3. What the pools own

`Pool/Release.lean` has the invariant of one pool over its heap.  Here two pools share one, so the
invariant is split into a part that does not speak of the heap (`Holdings.Sound`) and the account
of the heap's regions: those of the one pool, those of the other, and the rest. -/

/-- `CW_CYCLE_POOL_SIZE`. -/
def cyclePoolSize : Nat := 16 * 1024

/-- A failing `cw_create_pool` only uses an answer up. -/
theorem createPool_none {size : Nat} {h h' : Heap} (hc : createPool size h = (none, h')) :
    h' = { h with calls := h.calls + 1 } := by
  simp only [createPool, cwMemalign] at hc
  cases hq : h.request size with
  | mk ans hh =>
    rw [hq] at hc
    cases ans with
    | some base => exact absurd (congrArg Prod.fst hc) (by simp)
    | none =>
      obtain ⟨-, rfl⟩ := Prod.mk.inj hc
      exact Heap.request_none hq

namespace Holdings

/-- The heap's regions that are the pool's: its blocks, and its large allocations `wholes`. -/
def chunks (x : Holdings) (wholes : List Region) : List Region :=
  x.pool.spans.map Span.whole ++ wholes

/-- The pool invariant, as far as it does not speak of the heap. -/
def Sound (A : Alignment) (wholes : List Region) (x : Holdings) : Prop :=
  ∃ h other, (x.world h).Inv A cyclePoolSize wholes other

variable {A : Alignment} {x : Holdings} {h : Heap} {wholes other : List Region}

theorem Sound.inv (hx : x.Sound A wholes) (hok : h.Ok)
    (hlive : h.live.Perm (x.chunks wholes ++ other)) :
    (x.world h).Inv A cyclePoolSize wholes other := by
  obtain ⟨h₀, other₀, hinv⟩ := hx
  exact ⟨hinv.pool.of_heap hok hlive, hinv.arrays⟩

/-- A call on a pool moves regions between the pool and the free part of the heap; what is not the
pool's stays as it is. -/
theorem Sound.step (hx : x.Sound A wholes) (hok : h.Ok)
    (hlive : h.live.Perm (x.chunks wholes ++ other)) {op : PoolOp} (hop : (x.world h).Admits op) :
    ∃ wholes', ((x.world h).step A op).2.holdings.Sound A wholes' ∧
      ((x.world h).step A op).2.heap.Ok ∧
      ((x.world h).step A op).2.heap.live.Perm
        (((x.world h).step A op).2.holdings.chunks wholes' ++ other) := by
  obtain ⟨wholes', hinv⟩ := (hx.inv hok hlive).step hop
  exact ⟨wholes', ⟨_, other, hinv⟩, hinv.pool.heap_ok, hinv.pool.owned⟩

/-- `cw_destroy_pool` gives all of it back, and nothing else. -/
theorem Sound.destroy (hx : x.Sound A wholes) (hok : h.Ok)
    (hlive : h.live.Perm (x.chunks wholes ++ other)) :
    (destroyPool x.pool h).Ok ∧ (destroyPool x.pool h).live.Perm other ∧
      (destroyPool x.pool h).got = h.got :=
  (hx.inv hok hlive).pool.destroyPool

/-- A pool that was just made. -/
theorem Sound.create {p : Pool} {h' : Heap} (hok : h.Ok)
    (hc : createPool cyclePoolSize h = (some p, h')) :
    Sound A [] { pool := p, plain := [], arrays := [] } ∧ h'.Ok ∧
      h'.live.Perm (chunks { pool := p, plain := [], arrays := [] } [] ++ h.live) := by
  have hdvd : A.bytes ∣ cyclePoolSize := Nat.dvd_trans A.bytes_dvd ⟨1024, rfl⟩
  obtain ⟨hinv, -⟩ := Pool.Inv.of_create hok (by decide) hdvd hc
  exact ⟨⟨h', h.live, hinv, by simp [world]⟩, hinv.heap_ok, hinv.owned⟩

end Holdings

/-- The regions of the temporary pool, if there is one. -/
def tempChunks (temp : Option Holdings) (wholes : List Region) : List Region :=
  match temp with
  | none => []
  | some t => t.chunks wholes

namespace Machine

variable {A : Alignment} {m m' : Machine} {rest V W : List Region}

/-- The heap's regions are those of the two pools and `rest`; `V` and `W` are the pools' large
allocations, which are regions of their own. -/
structure Owns (A : Alignment) (rest V W : List Region) (m : Machine) : Prop where
  heap : m.heap.Ok
  main : m.main.Sound A V
  temp : ∀ t, m.temp = some t → t.Sound A W
  live : m.heap.live.Perm (m.main.chunks V ++ (tempChunks m.temp W ++ rest))

/-- The temporary pool's regions in front. -/
theorem Owns.live_temp (h : m.Owns A rest V W) {t : Holdings} (ht : m.temp = some t) :
    m.heap.live.Perm (t.chunks W ++ (m.main.chunks V ++ rest)) := by
  have hlive := h.live
  rw [ht] at hlive
  exact hlive.trans (List.perm_append_comm_assoc _ _ _)

theorem Owns.call (h : m.Owns A rest V W) {op : PoolOp}
    (hop : (m.main.world m.heap).Admits op) : ∃ V', (m.call A op).2.Owns A rest V' W := by
  obtain ⟨V', hmain, hok, hlive⟩ := h.main.step h.heap h.live hop
  exact ⟨V', hok, hmain, h.temp, hlive⟩

theorem Owns.callTemp (h : m.Owns A rest V W) {t : Holdings} (ht : m.temp = some t) {op : PoolOp}
    (hop : (t.world m.heap).Admits op) : ∃ W', (m.callTemp A t op).2.Owns A rest V W' := by
  obtain ⟨W', htemp, hok, hlive⟩ := (h.temp t ht).step h.heap (h.live_temp ht) hop
  refine ⟨W', hok, h.main, ?_, hlive.trans (List.perm_append_comm_assoc _ _ _)⟩
  rintro _ ⟨⟩
  exact htemp

/-- The heap moved on, and what is not the pools' with it. -/
theorem Owns.of_heap (h : m.Owns A rest V W) {h' : Heap} {rest' : List Region} (hok : h'.Ok)
    (hlive : h'.live.Perm (m.main.chunks V ++ (tempChunks m.temp W ++ rest'))) :
    Owns A rest' V W { m with heap := h' } := ⟨hok, h.main, h.temp, hlive⟩

/-! ## 4. What is held on top of the host

`Held` is the assertion that goes through the whole of the set-up.  It is indexed by what changes:
whether there is a temporary pool, which buffers the parser has, and which descriptors are open.
Each kind of call has a lemma that says which index it moves. -/

/-- The regions of some buffers. -/
def buffers (bufs : List Nat) : List Region := bufs.map fun p => ⟨p, confBuffer⟩

/-- A machine on top of `host`: the heap has the regions of the pools and the buffers `bufs`
besides what it had, and the kernel the descriptors `fds`; `staged` says whether there is a
temporary pool. -/
structure Held (A : Alignment) (host : Host) (staged : Bool) (bufs : List Nat) (fds : List Int)
    (m : Machine) : Prop where
  owns : ∃ V W, m.Owns A (buffers bufs ++ host.heap.live) V W
  got : host.heap.got <:+ m.heap.got
  kernel : host.kernel.Over fds m.kernel
  environ : m.environ = host.environ
  temp : m.temp.isSome = staged

variable {host : Host} {staged : Bool} {bufs : List Nat} {fds : List Int}

theorem Held.call (h : m.Held A host staged bufs fds) {op : PoolOp}
    (hop : (m.main.world m.heap).Admits op) : (m.call A op).2.Held A host staged bufs fds := by
  obtain ⟨V, W, howns⟩ := h.owns
  obtain ⟨V', howns'⟩ := howns.call hop
  have hgot := PoolWorld.got_step A (m.main.world m.heap) op
  exact ⟨⟨V', W, howns'⟩, h.got.trans hgot, h.kernel, h.environ, h.temp⟩

theorem Held.callTemp (h : m.Held A host staged bufs fds) {t : Holdings} (ht : m.temp = some t)
    {op : PoolOp} (hop : (t.world m.heap).Admits op) :
    (m.callTemp A t op).2.Held A host staged bufs fds := by
  obtain ⟨V, W, howns⟩ := h.owns
  obtain ⟨W', howns'⟩ := howns.callTemp ht hop
  have hgot := PoolWorld.got_step A (t.world m.heap) op
  refine ⟨⟨V, W', howns'⟩, h.got.trans hgot, h.kernel, h.environ, ?_⟩
  rw [← h.temp, ht]
  rfl

/-- A step of the kernel, or on the listening sockets. -/
theorem Held.frame (h : m.Held A host staged bufs fds) {k : Kernel} {fds' : List Int}
    (hk : host.kernel.Over fds' k) (ls : List Listening) :
    Held A host staged bufs fds' { m with kernel := k, listening := ls } := by
  obtain ⟨V, W, hm⟩ := h.owns
  exact ⟨⟨V, W, hm.heap, hm.main, hm.temp, hm.live⟩, h.got, hk, h.environ, h.temp⟩

/-- A step of the heap. -/
theorem Held.withHeap (h : m.Held A host staged bufs fds) {h' : Heap} {bufs' : List Nat}
    (hgot : m.heap.got <:+ h'.got)
    (howns : ∀ V W, m.Owns A (buffers bufs ++ host.heap.live) V W →
      Owns A (buffers bufs' ++ host.heap.live) V W { m with heap := h' }) :
    Held A host staged bufs' fds { m with heap := h' } := by
  obtain ⟨V, W, hm⟩ := h.owns
  exact ⟨⟨V, W, howns V W hm⟩, h.got.trans hgot, h.kernel, h.environ, h.temp⟩

theorem Held.alloc (h : m.Held A host staged bufs fds) {h' : Heap} {p : Nat}
    (hc : cwAlloc confBuffer m.heap = (some p, h')) :
    Held A host staged (p :: bufs) fds { m with heap := h' } := by
  have hgot := m.heap.got_request confBuffer
  unfold cwAlloc at hc
  rw [hc] at hgot
  refine h.withHeap hgot fun V W hm => ?_
  have hok := hm.heap.request (by decide) hc
  obtain ⟨-, rfl⟩ := Heap.request_some hc
  refine hm.of_heap hok ?_
  have hmiddle : (⟨p, confBuffer⟩ :: (m.main.chunks V ++ tempChunks m.temp W
      ++ (buffers bufs ++ host.heap.live))).Perm (m.main.chunks V ++ tempChunks m.temp W
      ++ ⟨p, confBuffer⟩ :: (buffers bufs ++ host.heap.live)) := List.perm_middle.symm
  rw [List.append_assoc, List.append_assoc] at hmiddle
  exact (hm.live.cons _).trans hmiddle

theorem Held.allocFailed (h : m.Held A host staged bufs fds) {h' : Heap}
    (hc : cwAlloc confBuffer m.heap = (none, h')) :
    Held A host staged bufs fds { m with heap := h' } := by
  unfold cwAlloc at hc
  obtain rfl := Heap.request_none hc
  exact h.withHeap List.suffix_rfl fun V W hm => hm.of_heap hm.heap.use hm.live

theorem Held.free {p : Nat} (h : m.Held A host staged (p :: bufs) fds) :
    Held A host staged bufs fds { m with heap := m.heap.free p } := by
  refine h.withHeap (by rw [Heap.got_free]) fun V W hm => ?_
  have hmiddle : (m.main.chunks V ++ tempChunks m.temp W
      ++ ⟨p, confBuffer⟩ :: (buffers bufs ++ host.heap.live)).Perm (⟨p, confBuffer⟩ ::
      (m.main.chunks V ++ tempChunks m.temp W ++ (buffers bufs ++ host.heap.live))) :=
    List.perm_middle
  rw [List.append_assoc, List.append_assoc] at hmiddle
  obtain ⟨hok, hlive⟩ := hm.heap.free_perm (hm.live.trans hmiddle)
  exact hm.of_heap hok hlive

/-- Module code leaves what is held as it is: it calls the pools, and these keep their own
accounts.  The induction is on its calls. -/
theorem Held.uses (h : m.Held A host staged bufs fds) (hu : Uses A m m') :
    m'.Held A host staged bufs fds := by
  induction hu with
  | refl => exact h
  | main _ hop _ ih => exact ih.call hop
  | temp _ ht hop ih => exact ih.callTemp ht hop
  | listen _ ls ih => exact ih.frame ih.kernel ls

theorem Held.record (h : m.Held A host staged bufs fds) (c : ModuleCall) :
    (m.record c).Held A host staged bufs fds := by
  obtain ⟨V, W, hm⟩ := h.owns
  exact ⟨⟨V, W, hm.heap, hm.main, hm.temp, hm.live⟩, h.got, h.kernel, h.environ, h.temp⟩

/-- What is in an array does not matter to the arrays' regions. -/
theorem clearLast_spec : ∀ (as : List LiveArray), (∀ a ∈ as, a.arr.Ok) →
    (clearLast as).flatMap (fun a => [a.ctrl, a.arr.area])
        = as.flatMap (fun a => [a.ctrl, a.arr.area]) ∧
      ∀ a ∈ clearLast as, a.arr.Ok := by
  intro as
  induction as using clearLast.induct with
  | case1 =>
    intro _
    exact ⟨rfl, by simp [clearLast]⟩
  | case2 a =>
    intro hok
    refine ⟨rfl, ?_⟩
    intro b hb
    obtain rfl := List.mem_singleton.mp hb
    have ha := hok a List.mem_cons_self
    exact ⟨ha.size_pos, ha.nalloc_pos, Nat.zero_le _⟩
  | case3 a b as ih =>
    intro hok
    obtain ⟨hregions, hrest⟩ := ih fun c hc => hok c (List.mem_cons_of_mem _ hc)
    refine ⟨?_, ?_⟩
    · unfold clearLast
      simp only [List.flatMap_cons] at hregions ⊢
      rw [hregions]
    · intro c hc
      rcases List.mem_cons.mp hc with rfl | hc
      · exact hok c List.mem_cons_self
      · exact hrest c hc

theorem Held.clearArgs (h : m.Held A host staged bufs fds) :
    ((Machine.sys A).clearArgs m).Held A host staged bufs fds := by
  obtain ⟨V, W, hm⟩ := h.owns
  refine ⟨⟨V, W, hm.heap, ?_, hm.temp, hm.live⟩, h.got, h.kernel, h.environ, h.temp⟩
  obtain ⟨h₀, other, hinv⟩ := hm.main
  obtain ⟨hregions, hok⟩ := clearLast_spec m.main.arrays hinv.arrays
  refine ⟨h₀, other, ?_, hok⟩
  have hheld : (((Machine.sys A).clearArgs m).main.world h₀).held = (m.main.world h₀).held :=
    congrArg (m.main.plain ++ ·) hregions
  rw [hheld]
  exact hinv.pool

/-- The order of the arrays does not matter. -/
theorem Held.rotate (h : m.Held A host staged bufs fds) :
    Held A host staged bufs fds
      { m with main := { m.main with arrays := m.main.arrays.rotate 1 } } := by
  obtain ⟨V, W, hm⟩ := h.owns
  refine ⟨⟨V, W, hm.heap, ?_, hm.temp, hm.live⟩, h.got, h.kernel, h.environ, h.temp⟩
  obtain ⟨h₀, other, hinv⟩ := hm.main
  have hperm := List.rotate_perm m.main.arrays 1
  have hheld := (hperm.flatMap_right fun a => [a.ctrl, a.arr.area]).append_left m.main.plain
  exact ⟨h₀, other, hinv.pool.of_live hheld.symm (List.Sublist.refl _),
    fun a ha => hinv.arrays a (hperm.mem_iff.mp ha)⟩

theorem Held.createFailed (h : m.Held A host staged bufs fds) {h' : Heap}
    (hc : createPool cyclePoolSize m.heap = (none, h')) :
    Held A host staged bufs fds { m with heap := h' } := by
  obtain rfl := createPool_none hc
  exact h.withHeap List.suffix_rfl fun V W hm => hm.of_heap hm.heap.use hm.live

/-- The temporary pool comes into being. -/
theorem Held.createTemp (h : m.Held A host false bufs fds) {p : Pool} {h' : Heap}
    (hc : createPool cyclePoolSize m.heap = (some p, h')) :
    Held A host true bufs fds
      { m with heap := h', temp := some { pool := p, plain := [], arrays := [] } } := by
  obtain ⟨V, W, hm⟩ := h.owns
  have hnone : m.temp = none := by simpa using h.temp
  have hgot := got_createPool cyclePoolSize m.heap
  rw [hc] at hgot
  obtain ⟨hsound, hok, hlive⟩ := Holdings.Sound.create (A := A) hm.heap hc
  have hold := hm.live
  rw [hnone] at hold
  refine ⟨⟨V, [], hok, hm.main, ?_, ?_⟩, h.got.trans hgot, h.kernel, h.environ, rfl⟩
  · rintro _ ⟨⟩
    exact hsound
  · exact (hlive.trans (hold.append_left _)).trans (List.perm_append_comm_assoc _ _ _)

/-- The parser's calls push and pop: `cw_alloc` and `open` add a buffer and a descriptor on top,
`cw_free` and `close` take them away, and the other calls leave the two stacks as they are. -/
theorem disciplined (A : Alignment) (host : Host) (staged : Bool) :
    (Machine.sys A).configured.Disciplined
      fun bufs fds w => w.sys.Held A host staged bufs fds where
  keeps bufs fds :=
    { clearArgs := fun _ h => h.clearArgs
      arrayPush := fun _ h => h.call trivial
      pnalloc := fun n _ h => h.call (Nat.mod_lt n (by decide))
      pread := fun _ _ _ _ h => h.frame h.kernel.ask _ }
  openFailed _ _ _ _ h hfd := h.frame (h.kernel.openFailed hfd) _
  openFile _ _ _ _ h hfd := h.frame (h.kernel.openFd hfd) _
  fdInfo _ _ _ _ h := h.frame h.kernel.ask _
  allocFailed _ _ w w' h hc := by
    obtain ⟨hans, rfl⟩ := Prod.mk.inj hc
    exact h.allocFailed (Prod.ext hans rfl)
  alloc _ _ w w' p h hc := by
    obtain ⟨hans, rfl⟩ := Prod.mk.inj hc
    exact h.alloc (Prod.ext hans rfl)
  free _ _ _ _ h := h.free
  closeFile _ _ _ _ h := h.frame h.kernel.closeFd _

end Machine

end Capwap
