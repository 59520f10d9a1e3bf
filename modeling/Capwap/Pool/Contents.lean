/-
# Arrays refine lists

An array is the list of the elements that were pushed on it.  The world here (`ArrayWorld`) is a
pool with clients that also write: into the regions they were handed out, and into the element
slots that a push returns.  Next to each array stands the list it is for (`HeldArray.elems`), to
which a push that succeeds adds the elements its caller writes.

The invariant reads every array back from the bytes.  A push moves the elements, or leaves them
where they are, and returns the slot behind them (`CwArray.Grows`); whatever else is written lies
apart from the element area, since the pool's regions do.
-/
import Capwap.Pool.Runs
import Capwap.Pool.Atomic
import Capwap.Lib.Bytes

namespace Capwap

/-! ## 1. A pool whose clients write

In `Pool/Array.lean` clients only ask for memory.  Here they use it: a write goes to a region a
client holds, and a push comes with the write of the element to the slot it returned.  Each array
is kept with the list of what was pushed on it (`elems`), which no function of the model looks
at. -/

/-- A caller writes `data` from `p` on. -/
def Heap.write (h : Heap) (p : Nat) (data : List UInt8) : Heap :=
  { h with bytes := Bytes.store h.bytes p data }

/-- An array, the region of its control block when `cw_array_create` made it, and the elements
written to it. -/
structure HeldArray where
  ctrl : List Region
  arr : CwArray
  elems : List (List UInt8)

/-- The elements in memory. -/
def CwArray.contents (a : CwArray) (h : Heap) : List (List UInt8) :=
  Bytes.rows h.bytes a.elts a.size a.nelts

/-- A pool, its heap, the plain regions handed out and the arrays. -/
structure ArrayWorld where
  heap : Heap
  pool : Pool
  plain : List Region
  arrays : List HeldArray

/-- What clients do.  Regions and arrays are named by their position.  `push` and `pushN` are the
calls together with the writes to the slots they return; `create` and `init` are the two ways to
make an array, with the control block in the pool or elsewhere. -/
inductive ArrayOp
  | palloc (size : Nat)
  | pnalloc (size : Nat)
  | pcalloc (size : Nat)
  | write (i offset : Nat) (data : List UInt8)
  | create (n size : Nat)
  | init (n size : Nat)
  | push (i : Nat) (v : List UInt8)
  | pushN (i : Nat) (vs : List (List UInt8))

namespace ArrayWorld

/-- A plain allocation. -/
def handOut (w : ArrayWorld) (size : Nat) (r : Option Nat × Pool × Heap) : Bool × ArrayWorld :=
  match r with
  | (none, pool, heap) => (false, { w with pool := pool, heap := heap })
  | (some m, pool, heap) =>
    (true, { w with pool := pool, heap := heap, plain := ⟨m, size⟩ :: w.plain })

/-- A push on the array `a`, the `i`-th, and the writes of the elements `vs` to the slots. -/
def pushed (w : ArrayWorld) (i : Nat) (a : HeldArray) (vs : List (List UInt8))
    (r : Option Nat × CwArray × Pool × Heap) : Bool × ArrayWorld :=
  match r with
  | (none, arr, pool, heap) =>
    (false, { w with pool := pool, heap := heap, arrays := w.arrays.set i { a with arr := arr } })
  | (some slot, arr, pool, heap) =>
    (true, { w with
      pool := pool
      heap := heap.write slot vs.flatten
      arrays := w.arrays.set i { a with arr := arr, elems := a.elems ++ vs } })

/-- What an operation does, and whether its call succeeds. -/
def step (A : Alignment) (w : ArrayWorld) : ArrayOp → Bool × ArrayWorld
  | .palloc size => w.handOut size (Capwap.palloc A w.pool size w.heap)
  | .pnalloc size => w.handOut size (Capwap.pnalloc A w.pool size w.heap)
  | .pcalloc size => w.handOut size (Capwap.pcalloc A w.pool size w.heap)
  | .write i offset data =>
    match w.plain[i]? with
    | none => (false, w)
    | some r => (true, { w with heap := w.heap.write (r.base + offset) data })
  | .create n size =>
    match arrayCreate A w.pool n size w.heap with
    | (none, pool, heap) => (false, { w with pool := pool, heap := heap })
    | (some (self, arr), pool, heap) =>
      (true, { w with
        pool := pool, heap := heap, arrays := ⟨[⟨self, sizeofArray⟩], arr, []⟩ :: w.arrays })
  | .init n size =>
    match arrayInit A w.pool n size w.heap with
    | (none, pool, heap) => (false, { w with pool := pool, heap := heap })
    | (some arr, pool, heap) =>
      (true, { w with pool := pool, heap := heap, arrays := ⟨[], arr, []⟩ :: w.arrays })
  | .push i v =>
    match w.arrays[i]? with
    | none => (false, w)
    | some a => w.pushed i a [v] (arrayPush A a.arr w.pool w.heap)
  | .pushN i vs =>
    match w.arrays[i]? with
    | none => (false, w)
    | some a => w.pushed i a vs (arrayPushN A a.arr vs.length w.pool w.heap)

/-- What clients have to respect: they write inside their regions and slots, and sizes and the
products of the growth formulas fit in `size_t`.  Arrays are made with `least` elements or more,
and an array made with none has elements of some C type, which `PTRDIFF_MAX` bounds. -/
def Admits (least : Nat) (w : ArrayWorld) : ArrayOp → Prop
  | .palloc size => size < wordSize
  | .pnalloc size => size < wordSize
  | .pcalloc size => size < wordSize
  | .write i offset data => ∀ r, w.plain[i]? = some r → offset + data.length ≤ r.size
  | .create n size => least ≤ n ∧ 1 ≤ size ∧ n * size < wordSize ∧ (n = 0 → size < userTop)
  | .init n size => least ≤ n ∧ 1 ≤ size ∧ n * size < wordSize ∧ (n = 0 → size < userTop)
  | .push i v => ∀ a, w.arrays[i]? = some a → v.length = a.arr.size
  | .pushN i vs => ∀ a, w.arrays[i]? = some a →
      (∀ v ∈ vs, v.length = a.arr.size) ∧ 2 * max vs.length a.arr.nalloc * a.arr.size < wordSize

/-- Reachable by a sequence of operations. -/
inductive Reach (A : Alignment) (least : Nat) : ArrayWorld → ArrayWorld → Prop
  | refl (w : ArrayWorld) : Reach A least w w
  | tail {w₀ w : ArrayWorld} {op : ArrayOp} :
      Reach A least w₀ w → w.Admits least op → Reach A least w₀ (w.step A op).2

/-- The world right after `cw_create_pool`, when it succeeds. -/
def create (size : Nat) (h : Heap) : Option ArrayWorld :=
  match createPool size h with
  | (none, _) => none
  | (some pool, heap) => some { heap := heap, pool := pool, plain := [], arrays := [] }

/-- What the clients hold. -/
def held (w : ArrayWorld) : List Region :=
  w.plain ++ w.arrays.flatMap fun a => a.ctrl ++ [a.arr.area]

end ArrayWorld

/-! ## 2. What a push does to the elements

Whichever way the array grows, three facts describe the call to everyone else: where the slot is,
that the elements are behind one another from `elts` on as before, and that bytes outside the
array's new area are untouched (`SameOff`). -/

/-- The array grows by `n` elements, from `slot` on; those it had are where it is now, and nothing
else is written. -/
structure CwArray.Grows (a a' : CwArray) (slot n : Nat) (m m' : Bytes) : Prop where
  size : a'.size = a.size
  nelts : a'.nelts = a.nelts + n
  slot : slot = a'.elts + a.nelts * a.size
  copied : ∀ x < a.nelts * a.size, m' (a'.elts + x) = m (a.elts + x)
  frame : Bytes.SameOff a'.area m m'

theorem Heap.memcpy_at (h : Heap) {dst src n x : Nat} (hx : x < n) :
    (h.memcpy dst src n).bytes (dst + x) = h.bytes (src + x) := by
  have hin : dst ≤ dst + x ∧ dst + x < dst + n := ⟨Nat.le_add_right _ _, Nat.add_lt_add_left hx _⟩
  simp only [Heap.memcpy, if_pos hin, Nat.add_sub_cancel_left]

theorem Heap.memcpy_sameOff (h : Heap) (dst src n : Nat) :
    Bytes.SameOff ⟨dst, n⟩ h.bytes (h.memcpy dst src n).bytes := by
  intro x hx
  simp only [Region.stop] at hx
  exact if_neg (by omega)

theorem Heap.memzero_sameOff (h : Heap) (p n : Nat) :
    Bytes.SameOff ⟨p, n⟩ h.bytes (h.memzero p n).bytes := by
  intro x hx
  simp only [Region.stop] at hx
  exact if_neg (by omega)

namespace Pool.Inv

variable {A : Alignment} {psize : Nat} {h h' : Heap} {p p' : Pool} {wholes other live : List Region}
variable {a a' : CwArray} {slot : Nat}

/-- The regions a client holds are apart from the one in front. -/
theorem apart_front {r s : Region} (hI : p.Inv A psize h wholes other (r :: live)) (hs : s ∈ live) :
    s.Apart r := by
  have hpw := (List.pairwise_append.mp hI.sound.live_apart).2.1
  exact ((List.pairwise_cons.mp hpw).1 s hs).symm

/-- The address of the slot behind `k` elements. -/
theorem slot_eq {elts k size top : Nat} (hle : k * size ≤ top) (htop : elts + top ≤ userTop) :
    wadd elts (wmul size k) = elts + k * size := by
  unfold userTop at htop
  have hmul : wmul size k = k * size := by
    rw [Nat.mul_comm]
    refine wmul_eq ?_
    rw [Nat.mul_comm]
    unfold wordSize
    omega
  rw [hmul]
  refine wadd_eq ?_
  unfold wordSize
  omega

/-- The elements are copied to a new area, and the slot behind them is returned.  It is one lemma
for both pushes, which compute the number of bytes and the slot differently. -/
theorem grows_copy {new nalloc n k : Nat}
    (htop : new + nalloc * a.size ≤ userTop) (hn : a.nelts + n ≤ nalloc)
    (hk : k = a.nelts * a.size) (hslot : slot = wadd new (wmul a.size a.nelts)) :
    a.Grows { a with elts := new, nalloc := nalloc, nelts := a.nelts + n } slot n h.bytes
      (h.memcpy new a.elts k).bytes := by
  have hle : a.nelts * a.size ≤ nalloc * a.size := Nat.mul_le_mul_right _ (by omega)
  subst hk hslot
  refine ⟨rfl, rfl, slot_eq hle htop, fun x hx => h.memcpy_at hx, ?_⟩
  refine (h.memcpy_sameOff new a.elts _).mono ⟨Nat.le_refl _, ?_⟩
  exact Nat.add_le_add_left hle new

/-- A push that succeeds. -/
theorem arrayPush_grows (hI : p.Inv A psize h wholes other (a.area :: live)) (ha : a.Ok)
    (hr : Capwap.arrayPush A a p h = (some slot, a', p', h')) :
    a.Grows a' slot 1 h.bytes h'.bytes := by
  obtain ⟨htop, hn, hs, hmul, helts, hdouble⟩ := hI.area_bounds ha
  have hnelts := ha.nelts_le
  have hle : a.nelts * a.size ≤ a.nalloc * a.size := Nat.mul_le_mul_right _ hnelts
  have hnext : wadd a.nelts 1 = a.nelts + 1 := wadd_eq (by unfold wordSize at *; omega)
  unfold Capwap.arrayPush at hr
  by_cases hfull : a.nelts = a.nalloc
  · rw [if_pos hfull] at hr
    simp only at hr
    split at hr
    · simp only [Prod.mk.injEq, Option.some.injEq] at hr
      obtain ⟨rfl, rfl, rfl, rfl⟩ := hr
      exact ⟨rfl, hnext, slot_eq hle htop, fun _ _ => rfl, .refl _ _⟩
    · cases hq : palloc A p (wmul 2 (wmul a.size a.nalloc)) h with
      | mk ans rest =>
        obtain ⟨p₁, h₁⟩ := rest
        rw [hq] at hr
        cases ans with
        | none => exact absurd (congrArg Prod.fst hr) (by simp)
        | some new =>
          unfold palloc at hq
          obtain ⟨wholes', hinv, -, hbytes⟩ := hI.entry hq
          have hsize : wmul 2 (wmul a.size a.nalloc) = a.nalloc * 2 * a.size := by
            rw [hmul, wmul_eq hdouble, Nat.mul_comm a.nalloc 2, Nat.mul_assoc]
          have hwn : wmul a.nalloc 2 = a.nalloc * 2 := wmul_eq (by unfold wordSize at *; omega)
          have hstop := hinv.live_stop_le (r := ⟨new, wmul 2 (wmul a.size a.nalloc)⟩)
            List.mem_cons_self
          rw [hsize] at hstop
          simp only [Prod.mk.injEq, Option.some.injEq] at hr
          obtain ⟨rfl, rfl, rfl, rfl⟩ := hr
          have hpos := ha.nalloc_pos
          rw [hwn, hnext, ← hbytes]
          refine grows_copy hstop (by omega) ?_ rfl
          rw [hmul, hfull]
  · rw [if_neg hfull] at hr
    simp only [Prod.mk.injEq, Option.some.injEq] at hr
    obtain ⟨rfl, rfl, rfl, rfl⟩ := hr
    exact ⟨rfl, hnext, slot_eq hle htop, fun _ _ => rfl, .refl _ _⟩

/-- A push of `n` elements that succeeds. -/
theorem arrayPushN_grows (hI : p.Inv A psize h wholes other (a.area :: live)) (ha : a.Ok) {n : Nat}
    (hprod : 2 * (n ⊔ a.nalloc) * a.size < wordSize)
    (hr : Capwap.arrayPushN A a n p h = (some slot, a', p', h')) :
    a.Grows a' slot n h.bytes h'.bytes := by
  obtain ⟨htop, hn, hs, hmul, helts, hdouble⟩ := hI.area_bounds ha
  have hnelts := ha.nelts_le
  have hcount : 2 * (n ⊔ a.nalloc) ≤ 2 * (n ⊔ a.nalloc) * a.size :=
    Nat.le_mul_of_pos_right _ ha.size_pos
  have hmax := le_max_left n a.nalloc
  have hmax' := le_max_right n a.nalloc
  have hle : a.nelts * a.size ≤ a.nalloc * a.size := Nat.mul_le_mul_right _ hnelts
  have hnext : wadd a.nelts n = a.nelts + n := wadd_eq (by omega)
  unfold Capwap.arrayPushN at hr
  simp only at hr
  split at hr
  · split at hr
    · simp only [Prod.mk.injEq, Option.some.injEq] at hr
      obtain ⟨rfl, rfl, rfl, rfl⟩ := hr
      exact ⟨rfl, hnext, slot_eq hle htop, fun _ _ => rfl, .refl _ _⟩
    · have hlarger : (if n ≥ a.nalloc then n else a.nalloc) = n ⊔ a.nalloc := by
        rw [max_def]
        split <;> split <;> omega
      have hnew : wmul 2 (n ⊔ a.nalloc) = 2 * (n ⊔ a.nalloc) := wmul_eq (by omega)
      rw [hlarger, hnew, wmul_eq hprod] at hr
      cases hq : palloc A p (2 * (n ⊔ a.nalloc) * a.size) h with
      | mk ans rest =>
        obtain ⟨p₁, h₁⟩ := rest
        rw [hq] at hr
        cases ans with
        | none => exact absurd (congrArg Prod.fst hr) (by simp)
        | some new =>
          unfold palloc at hq
          obtain ⟨wholes', hinv, -, hbytes⟩ := hI.entry hq
          have hstop := hinv.live_stop_le (r := ⟨new, 2 * (n ⊔ a.nalloc) * a.size⟩)
            List.mem_cons_self
          simp only [Prod.mk.injEq, Option.some.injEq] at hr
          obtain ⟨rfl, rfl, rfl, rfl⟩ := hr
          rw [hnext, ← hbytes]
          refine grows_copy hstop (by omega) (wmul_eq ?_) rfl
          unfold wordSize at *
          omega
  · simp only [Prod.mk.injEq, Option.some.injEq] at hr
    obtain ⟨rfl, rfl, rfl, rfl⟩ := hr
    exact ⟨rfl, hnext, slot_eq hle htop, fun _ _ => rfl, .refl _ _⟩

end Pool.Inv

/-! ## 3. Every operation keeps the lists

An array is sound when its list is what memory holds from `elts` on.  An operation writes into one
region, and the others are apart from it by the spatial invariant, so their arrays are read as
before (`HeldArray.Sound.frame`); the array the operation is about is the one case to look at. -/

/-- An array whose elements are in memory. -/
structure HeldArray.Sound (m : Bytes) (a : HeldArray) : Prop where
  ok : a.arr.Ok
  contents : Bytes.rows m a.arr.elts a.arr.size a.arr.nelts = a.elems

/-- What is written apart from the element area does not matter. -/
theorem HeldArray.Sound.frame {m m' : Bytes} {a : HeldArray} {r : Region} (h : a.Sound m)
    (hm : Bytes.SameOff r m m') (hr : a.arr.area.Apart r) : a.Sound m' := by
  refine ⟨h.ok, Eq.trans ?_ h.contents⟩
  exact hm.rows hr (Nat.mul_le_mul_right _ h.ok.nelts_le)

/-- A push, and the writes to the slots it returns. -/
theorem HeldArray.Sound.grows {m m' : Bytes} {a : HeldArray} {arr : CwArray} {slot : Nat}
    {vs : List (List UInt8)} (h : a.Sound m) (hg : a.arr.Grows arr slot vs.length m m')
    (harr : arr.Ok) (hvs : ∀ v ∈ vs, v.length = a.arr.size) :
    HeldArray.Sound (Bytes.store m' slot vs.flatten)
      { a with arr := arr, elems := a.elems ++ vs } := by
  refine ⟨harr, ?_⟩
  have hold : Bytes.rows (Bytes.store m' slot vs.flatten) arr.elts a.arr.size a.arr.nelts
      = a.elems := by
    refine Eq.trans (Bytes.rows_congr fun x hx => ?_) h.contents
    have hbefore : arr.elts + x < slot := by
      rw [hg.slot]
      exact Nat.add_lt_add_left hx _
    exact (Bytes.store_sameOff m' slot vs.flatten _ (Or.inl hbefore)).trans (hg.copied x hx)
  simp only [hg.size, hg.nelts]
  rw [Bytes.rows_add, hold, ← hg.slot, Bytes.rows_store _ _ _ _ hvs]

namespace ArrayWorld

variable {A : Alignment} {psize : Nat} {w : ArrayWorld} {wholes other : List Region}

/-- The invariant: the pool's, and every array has its elements. -/
structure Inv (A : Alignment) (psize : Nat) (w : ArrayWorld) (wholes other : List Region) :
    Prop where
  pool : w.pool.Inv A psize w.heap wholes other w.held
  arrays : ∀ a ∈ w.arrays, a.Sound w.heap.bytes

/-- The regions held, the element area of one array first. -/
theorem held_perm {L T : List HeldArray} {a : HeldArray} (h : w.arrays = L ++ a :: T) :
    w.held.Perm (a.arr.area :: (a.ctrl ++ held { w with arrays := L ++ T })) := by
  have hmiddle : (w.plain ++ (L.flatMap (fun a => a.ctrl ++ [a.arr.area]) ++
      ((a.ctrl ++ [a.arr.area]) ++ T.flatMap fun a => a.ctrl ++ [a.arr.area]))).Perm
      ((a.ctrl ++ [a.arr.area]) ++ (w.plain ++ (L.flatMap (fun a => a.ctrl ++ [a.arr.area]) ++
        T.flatMap fun a => a.ctrl ++ [a.arr.area]))) := by
    rw [← List.append_assoc w.plain, ← List.append_assoc w.plain]
    exact List.perm_append_comm_assoc _ _ _
  simp only [held, h, List.flatMap_append, List.flatMap_cons]
  refine hmiddle.trans ?_
  rw [List.append_assoc]
  exact List.perm_middle

/-- The element area of an array is among the regions held. -/
theorem area_mem_held {a : HeldArray} (ha : a ∈ w.arrays) : a.arr.area ∈ w.held := by
  refine List.mem_append_right _ (List.mem_flatMap.mpr ⟨a, ha, ?_⟩)
  exact List.mem_append_right _ (List.mem_singleton.mpr rfl)

/-- Everything but one array, when something happens to a region in front of all the others. -/
theorem Inv.others (hI : w.Inv A psize wholes other) {p : Pool} {h : Heap}
    {wholes' live : List Region} {r : Region} {bs : List HeldArray}
    (hp : p.Inv A psize h wholes' other (r :: live)) (hbytes : Bytes.SameOff r w.heap.bytes h.bytes)
    (hmem : ∀ b ∈ bs, b ∈ w.arrays) (hlive : ∀ b ∈ bs, b.arr.area ∈ live) :
    ∀ b ∈ bs, b.Sound h.bytes := fun b hb =>
  (hI.arrays b (hmem b hb)).frame hbytes (hp.apart_front (hlive b hb))

/-- A plain allocation, with its bytes cleared or not. -/
theorem Inv.handOut (hI : w.Inv A psize wholes other) {size : Nat} {r : Option Nat × Pool × Heap}
    (hsome : ∀ m p h, r = (some m, p, h) →
      (∃ wholes', p.Inv A psize h wholes' other (⟨m, size⟩ :: w.held)) ∧
        Bytes.SameOff ⟨m, size⟩ w.heap.bytes h.bytes)
    (hnone : ∀ p h, r = (none, p, h) →
      p.Inv A psize h wholes other w.held ∧ h.bytes = w.heap.bytes) :
    ∃ wholes', (w.handOut size r).2.Inv A psize wholes' other := by
  obtain ⟨ans, p, h⟩ := r
  cases ans with
  | none =>
    obtain ⟨hp, hbytes⟩ := hnone p h rfl
    refine ⟨wholes, hp, ?_⟩
    simp only [ArrayWorld.handOut, hbytes]
    exact hI.arrays
  | some m =>
    obtain ⟨⟨wholes', hp⟩, hbytes⟩ := hsome m p h rfl
    exact ⟨wholes', hp, hI.others hp hbytes (fun _ hb => hb) fun _ hb => area_mem_held hb⟩

/-- A new array has no elements; its area is a new region. -/
theorem Inv.arrayInit (hI : w.Inv A psize wholes other) {n size : Nat} (hn : 1 ≤ n)
    (hs : 1 ≤ size) (hprod : n * size < wordSize) (ctrl : List Region) {p : Pool} {h : Heap}
    (hp : p.Inv A psize h wholes other (ctrl ++ w.held)) (hbytes : h.bytes = w.heap.bytes) :
    (∀ p' h', Capwap.arrayInit A p n size h = (none, p', h') →
      Inv A psize { w with pool := p', heap := h' } wholes other) ∧
    ∀ arr p' h', Capwap.arrayInit A p n size h = (some arr, p', h') → ∃ wholes',
      Inv A psize { w with pool := p', heap := h', arrays := ⟨ctrl, arr, []⟩ :: w.arrays }
        wholes' other := by
  unfold Capwap.arrayInit palloc
  rw [wmul_eq hprod]
  cases hr : (if n * size ≤ p.max then pallocSmall A p (n * size) true h
      else pallocLarge A p (n * size) h) with
  | mk ans rest =>
    obtain ⟨p₁, h₁⟩ := rest
    cases ans with
    | none =>
      refine ⟨?_, fun arr p' h' heq => absurd (congrArg Prod.fst heq) (by simp)⟩
      intro p' h' heq
      simp only [Prod.mk.injEq, true_and] at heq
      obtain ⟨rfl, rfl⟩ := heq
      obtain ⟨-, hinv, -, hsame⟩ := hp.entry_none hr
      refine ⟨hinv.of_live (List.Perm.refl _) (List.sublist_append_right ctrl _), ?_⟩
      simp only [hsame, hbytes]
      exact hI.arrays
    | some elts =>
      refine ⟨fun p' h' heq => absurd (congrArg Prod.fst heq) (by simp), ?_⟩
      intro arr p' h' heq
      simp only [Prod.mk.injEq, Option.some.injEq] at heq
      obtain ⟨rfl, rfl, rfl⟩ := heq
      obtain ⟨wholes', hinv, -, hsame⟩ := hp.entry hr
      refine ⟨wholes', ?_, ?_⟩
      · refine hinv.of_live ?_ (List.Sublist.refl _)
        exact (held_perm (w := { w with pool := p₁, heap := h₁, arrays :=
          ⟨ctrl, ⟨elts, 0, size, n⟩, []⟩ :: w.arrays }) (L := []) (T := w.arrays) rfl).symm
      · intro b hb
        rcases List.mem_cons.mp hb with rfl | hb
        · exact ⟨⟨hs, hn, Nat.zero_le _⟩, rfl⟩
        · simp only [hsame, hbytes]
          exact hI.arrays b hb

/-- A push, with what the pool function does as hypotheses. -/
theorem Inv.pushed (hI : w.Inv A psize wholes other) {i : Nat} {a : HeldArray}
    (ha : w.arrays[i]? = some a) {vs : List (List UInt8)} (hvs : ∀ v ∈ vs, v.length = a.arr.size)
    {r : Option Nat × CwArray × Pool × Heap}
    (hpool : ∀ live, w.pool.Inv A psize w.heap wholes other (a.arr.area :: live) →
      ∃ wholes', r.2.2.1.Inv A psize r.2.2.2 wholes' other (r.2.1.area :: live) ∧ r.2.1.Ok)
    (hsome : ∀ live, w.pool.Inv A psize w.heap wholes other (a.arr.area :: live) →
      ∀ slot arr p h, r = (some slot, arr, p, h) →
        a.arr.Grows arr slot vs.length w.heap.bytes h.bytes)
    (hnone : ∀ arr p h, r = (none, arr, p, h) → arr = a.arr ∧ w.heap.Reverted h) :
    ∃ wholes', (w.pushed i a vs r).2.Inv A psize wholes' other := by
  obtain ⟨L, T, harr, -, hset⟩ := split_at ha
  have hmem : a ∈ w.arrays := harr ▸ List.mem_append_right _ List.mem_cons_self
  have hrest : ∀ b ∈ L ++ T, b ∈ w.arrays := by
    intro b hb
    rw [harr, List.mem_append, List.mem_cons]
    exact (List.mem_append.mp hb).imp id Or.inr
  have hfocus := hI.pool.of_live (held_perm harr) (List.Sublist.refl _)
  obtain ⟨wholes', hp, harr'⟩ := hpool _ hfocus
  obtain ⟨ans, arr, p, h⟩ := r
  have hback : ∀ elems : List (List UInt8), ∀ x ∈ L ++ { a with arr := arr, elems := elems } :: T,
      x = { a with arr := arr, elems := elems } ∨ x ∈ L ++ T := by
    intro elems x hx
    rw [List.mem_append, List.mem_cons] at hx
    rcases hx with hx | rfl | hx
    · exact Or.inr (List.mem_append_left _ hx)
    · exact Or.inl rfl
    · exact Or.inr (List.mem_append_right _ hx)
  cases ans with
  | none =>
    obtain ⟨rfl, hreverted⟩ := hnone arr p h rfl
    refine ⟨wholes', ?_, ?_⟩
    · simp only [ArrayWorld.pushed, hset]
      exact hp.of_live (held_perm (w := { w with pool := p, heap := h, arrays := L ++ a :: T })
        rfl).symm (List.Sublist.refl _)
    · simp only [ArrayWorld.pushed, hset, hreverted.bytes]
      intro b hb
      rcases hback a.elems b hb with rfl | hb
      · exact hI.arrays a hmem
      · exact hI.arrays b (hrest b hb)
  | some slot =>
    have hg := hsome _ hfocus slot arr p h rfl
    have hflat := Bytes.length_flatten_rows hvs
    -- the slots lie in the element area
    have hin : Region.Inside ⟨slot, vs.flatten.length⟩ arr.area := by
      have hle : arr.nelts * arr.size ≤ arr.nalloc * arr.size :=
        Nat.mul_le_mul_right _ harr'.nelts_le
      rw [hg.nelts, hg.size, Nat.add_mul] at hle
      rw [hflat, hg.slot]
      unfold Region.Inside Region.stop CwArray.area
      simp only [hg.size]
      omega
    have hframe : Bytes.SameOff arr.area w.heap.bytes (h.write slot vs.flatten).bytes :=
      hg.frame.trans ((Bytes.store_sameOff _ _ _).mono hin)
    have hp' := hp.of_bytes (h.write slot vs.flatten).bytes
    refine ⟨wholes', ?_, ?_⟩
    · simp only [ArrayWorld.pushed, hset]
      exact hp'.of_live (held_perm (w := { w with
        pool := p, heap := h.write slot vs.flatten,
        arrays := L ++ { a with arr := arr, elems := a.elems ++ vs } :: T }) rfl).symm
        (List.Sublist.refl _)
    · simp only [ArrayWorld.pushed, hset]
      intro b hb
      rcases hback _ b hb with rfl | hb
      · exact (hI.arrays a hmem).grows hg harr' hvs
      · refine hI.others hp' hframe hrest (fun c hc => ?_) b hb
        exact List.mem_append_right _ (area_mem_held (w := { w with arrays := L ++ T }) hc)

/-- Every operation keeps the invariant: the arrays it does not name are read as before, and the
one it names has its list. -/
theorem Inv.step (hI : w.Inv A psize wholes other) {op : ArrayOp} (hop : w.Admits 1 op) :
    ∃ wholes', (w.step A op).2.Inv A psize wholes' other := by
  cases op with
  | palloc size =>
    refine hI.handOut (fun m p h hr => ?_) fun p h hr => ?_
    · obtain ⟨wholes', hp, -, hbytes⟩ := hI.pool.entry hr
      exact ⟨⟨wholes', hp⟩, hbytes ▸ .refl _ _⟩
    · obtain ⟨-, hp, -, hbytes⟩ := hI.pool.entry_none hr
      exact ⟨hp, hbytes⟩
  | pnalloc size =>
    refine hI.handOut (fun m p h hr => ?_) fun p h hr => ?_
    · obtain ⟨wholes', hp, -, hbytes⟩ := hI.pool.entry hr
      exact ⟨⟨wholes', hp⟩, hbytes ▸ .refl _ _⟩
    · obtain ⟨-, hp, -, hbytes⟩ := hI.pool.entry_none hr
      exact ⟨hp, hbytes⟩
  | pcalloc size =>
    cases hr : Capwap.palloc A w.pool size w.heap with
    | mk ans rest =>
      obtain ⟨p', h'⟩ := rest
      refine hI.handOut (fun m p h hc => ?_) fun p h hc => ?_
      · simp only [Capwap.pcalloc, hr] at hc
        cases ans with
        | none => exact absurd (congrArg Prod.fst hc) (by simp)
        | some m' =>
          simp only [Prod.mk.injEq, Option.some.injEq] at hc
          obtain ⟨rfl, rfl, rfl⟩ := hc
          obtain ⟨wholes', hp, -, hbytes⟩ := hI.pool.entry hr
          exact ⟨⟨wholes', hp.of_bytes _⟩, hbytes ▸ h'.memzero_sameOff _ _⟩
      · simp only [Capwap.pcalloc, hr] at hc
        cases ans with
        | some m' => exact absurd (congrArg Prod.fst hc) (by simp)
        | none =>
          simp only [Prod.mk.injEq, true_and] at hc
          obtain ⟨rfl, rfl⟩ := hc
          obtain ⟨-, hp, -, hbytes⟩ := hI.pool.entry_none hr
          exact ⟨hp, hbytes⟩
  | write i offset data =>
    simp only [ArrayWorld.step]
    cases hr : w.plain[i]? with
    | none => exact ⟨wholes, hI⟩
    | some r =>
      obtain ⟨L, T, hplain, -, -⟩ := split_at hr
      have hsize : offset + data.length ≤ r.size := hop r hr
      have hperm : w.held.Perm
          (r :: (L ++ T ++ w.arrays.flatMap fun a => a.ctrl ++ [a.arr.area])) := by
        unfold held
        rw [hplain, List.append_assoc, List.cons_append, List.append_assoc]
        exact List.perm_middle
      have hin : Region.Inside ⟨r.base + offset, data.length⟩ r := by
        unfold Region.Inside Region.stop
        simp only
        omega
      have hp := hI.pool.of_bytes (w.heap.write (r.base + offset) data).bytes
      refine ⟨wholes, hp, hI.others (hp.of_live hperm (List.Sublist.refl _))
        ((Bytes.store_sameOff _ _ _).mono hin) (fun _ hb => hb) fun b hb => ?_⟩
      refine List.mem_append_right _ (List.mem_flatMap.mpr ⟨b, hb, ?_⟩)
      exact List.mem_append_right _ (List.mem_singleton.mpr rfl)
  | create n size =>
    obtain ⟨hn, hs, hprod, -⟩ := hop
    simp only [ArrayWorld.step, Capwap.arrayCreate]
    cases hr : palloc A w.pool sizeofArray w.heap with
    | mk ans rest =>
      obtain ⟨p₁, h₁⟩ := rest
      have hr' := hr
      unfold palloc at hr'
      cases ans with
      | none =>
        obtain ⟨-, hp, -, hbytes⟩ := hI.pool.entry_none hr'
        refine ⟨wholes, hp, ?_⟩
        simp only [hbytes]
        exact hI.arrays
      | some self =>
        obtain ⟨wholes₁, hp₁, -, hbytes⟩ := hI.pool.entry hr'
        obtain ⟨hnone, hsome⟩ := Inv.arrayInit (w := { w with pool := p₁, heap := h₁ })
          ⟨hp₁.forget, by simp only [hbytes]; exact hI.arrays⟩ hn hs hprod [⟨self, sizeofArray⟩] hp₁
          rfl
        simp only
        cases hr₂ : Capwap.arrayInit A p₁ n size h₁ with
        | mk ans₂ rest₂ =>
          obtain ⟨p₂, h₂⟩ := rest₂
          cases ans₂ with
          | none => exact ⟨wholes₁, hnone p₂ h₂ hr₂⟩
          | some arr => exact hsome arr p₂ h₂ hr₂
  | init n size =>
    obtain ⟨hn, hs, hprod, -⟩ := hop
    obtain ⟨hnone, hsome⟩ := hI.arrayInit hn hs hprod [] hI.pool rfl
    simp only [ArrayWorld.step]
    cases hr : Capwap.arrayInit A w.pool n size w.heap with
    | mk ans rest =>
      obtain ⟨p', h'⟩ := rest
      cases ans with
      | none => exact ⟨wholes, hnone p' h' hr⟩
      | some arr => exact hsome arr p' h' hr
  | push i v =>
    simp only [ArrayWorld.step]
    cases ha : w.arrays[i]? with
    | none => exact ⟨wholes, hI⟩
    | some a =>
      have hok := (hI.arrays a (List.mem_of_getElem? ha)).ok
      refine hI.pushed ha (fun u hu => ?_) (fun live hp => hp.arrayPush hok)
        (fun live hp slot arr p h hr => hp.arrayPush_grows hok hr) fun arr p h hr => ?_
      · rw [List.mem_singleton.mp hu]
        exact hop a ha
      · obtain ⟨harr, -, hreverted⟩ := arrayPush_none hr
        exact ⟨harr, hreverted⟩
  | pushN i vs =>
    simp only [ArrayWorld.step]
    cases ha : w.arrays[i]? with
    | none => exact ⟨wholes, hI⟩
    | some a =>
      have hok := (hI.arrays a (List.mem_of_getElem? ha)).ok
      obtain ⟨hvs, hprod⟩ := hop a ha
      refine hI.pushed ha hvs (fun live hp => hp.arrayPushN hok hprod)
        (fun live hp slot arr p h hr => hp.arrayPushN_grows hok hprod hr) fun arr p h hr => ?_
      obtain ⟨harr, -, hreverted⟩ := arrayPushN_none hr
      exact ⟨harr, hreverted⟩

theorem Reach.inv {w₀ : ArrayWorld} (hr : Reach A 1 w₀ w) (h₀ : w₀.Inv A psize wholes other) :
    ∃ wholes', w.Inv A psize wholes' other := by
  induction hr with
  | refl => exact ⟨wholes, h₀⟩
  | tail _ hop ih =>
    obtain ⟨wholes', hinv⟩ := ih
    exact hinv.step hop

theorem create_inv {size : Nat} {h : Heap} (hok : h.Ok) (hge : sizeofPool ≤ size)
    (hdvd : A.bytes ∣ size) (hc : create size h = some w) : w.Inv A size [] h.live := by
  unfold create at hc
  cases hp : createPool size h with
  | mk ans h' =>
    rw [hp] at hc
    cases ans with
    | none => simp at hc
    | some pool =>
      simp only [Option.some.injEq] at hc
      subst hc
      exact ⟨(Pool.Inv.of_create hok hge hdvd hp).1, by simp⟩

/-! ## 4. The refinement -/

/-- A push on `w` that returns `NULL` changes no array, neither its record nor its elements. -/
def PushFails (w w' : ArrayWorld) : Prop :=
  w'.arrays = w.arrays ∧ ∀ a ∈ w.arrays, a.arr.contents w'.heap = a.arr.contents w.heap

/-- The arrays are the lists of their elements. -/
structure Refines (A : Alignment) (w : ArrayWorld) : Prop where
  contents : ∀ a ∈ w.arrays, a.arr.contents w.heap = a.elems
  nelts_le : ∀ a ∈ w.arrays, a.arr.nelts ≤ a.arr.nalloc
  push_none : ∀ i v, (w.step A (.push i v)).1 = false → PushFails w (w.step A (.push i v)).2
  pushN_none : ∀ i vs, (w.step A (.pushN i vs)).1 = false → PushFails w (w.step A (.pushN i vs)).2

theorem PushFails.of_none {i : Nat} {a : HeldArray} {vs : List (List UInt8)}
    {r : Option Nat × CwArray × Pool × Heap} (ha : w.arrays[i]? = some a)
    (hnone : ∀ arr p h, r = (none, arr, p, h) → arr = a.arr ∧ w.heap.Reverted h)
    (hr : (w.pushed i a vs r).1 = false) : PushFails w (w.pushed i a vs r).2 := by
  obtain ⟨ans, arr, p, h⟩ := r
  cases ans with
  | some slot => cases hr
  | none =>
    obtain ⟨rfl, hreverted⟩ := hnone arr p h rfl
    obtain ⟨L, T, harr, -, hset⟩ := split_at ha
    refine ⟨?_, fun b _ => ?_⟩
    · simp only [ArrayWorld.pushed, hset]
      exact harr.symm
    · simp only [ArrayWorld.pushed, CwArray.contents, hreverted.bytes]

/-- **Arrays refine lists.**  For every pool made by `cw_create_pool`, every sequence of operations
on it, with the pushes on each array interleaved in any order with other allocations and writes,
and every pattern of answers of the heap.  A push that succeeds adds to the end of the list; one
that fails changes no array. -/
theorem reach_refines {size : Nat} {h : Heap} {w₀ : ArrayWorld} (hok : h.Ok)
    (hge : sizeofPool ≤ size) (hdvd : A.bytes ∣ size) (hc : create size h = some w₀)
    (hr : Reach A 1 w₀ w) : w.Refines A := by
  obtain ⟨wholes, hinv⟩ := hr.inv (create_inv hok hge hdvd hc)
  refine ⟨fun a ha => (hinv.arrays a ha).contents, fun a ha => (hinv.arrays a ha).ok.nelts_le,
    fun i v hfail => ?_, fun i vs hfail => ?_⟩
  · simp only [ArrayWorld.step] at hfail ⊢
    cases ha : w.arrays[i]? with
    | none => exact ⟨rfl, fun _ _ => rfl⟩
    | some a =>
      rw [ha] at hfail
      refine .of_none ha (fun arr p h hr => ?_) hfail
      obtain ⟨harr, -, hreverted⟩ := arrayPush_none hr
      exact ⟨harr, hreverted⟩
  · simp only [ArrayWorld.step] at hfail ⊢
    cases ha : w.arrays[i]? with
    | none => exact ⟨rfl, fun _ _ => rfl⟩
    | some a =>
      rw [ha] at hfail
      refine .of_none ha (fun arr p h hr => ?_) hfail
      obtain ⟨harr, -, hreverted⟩ := arrayPushN_none hr
      exact ⟨harr, hreverted⟩

/-- The statement for an array of two bytes that has been pushed on three times: its elements have
moved behind another allocation. -/
theorem reach_refines_sample :
    ∃ w₀, create 1024 (Heap.fresh fun n => some (4096 * (n + 1))) = some w₀ ∧
      let w₁ := (w₀.step .word (.init 2 1)).2
      let w₂ := (w₁.step .word (.pushN 0 [[7], [8]])).2
      let w₃ := (w₂.step .word (.palloc 5)).2
      let w₄ := (w₃.step .word (.push 0 [9])).2
      w₄.Refines .word ∧ w₄.arrays.map HeldArray.elems = [[[7], [8], [9]]] := by
  refine ⟨_, rfl, ?_, by decide +kernel⟩
  refine reach_refines (h := Heap.fresh fun n => some (4096 * (n + 1)))
    (Heap.fresh_ok _) (by decide : sizeofPool ≤ 1024) (by decide) rfl ?_
  refine (((Reach.refl _).tail ?_).tail ?_).tail ?_ |>.tail ?_
  · exact ⟨by decide, by decide, by decide, by decide⟩
  · intro a ha
    cases ha
    exact ⟨by decide, by decide⟩
  · exact (by decide : 5 < wordSize)
  · intro a ha
    cases ha
    rfl

end ArrayWorld

end Capwap
