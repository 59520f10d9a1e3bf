/-
# One push and a bulk push of one

`cw_array_push(a)` and `cw_array_push_n(a, 1)` are written with different formulas: one doubles
`nalloc`, the other takes twice the larger of `nalloc` and the count; one copies `nalloc` elements,
the other `nelts`.  For an array with a capacity they are the same function
(`arrayPush_eq_arrayPushN`).

They part for an array made with none.  Twice nothing is nothing: `cw_array_push` then gets a new
area of no bytes, returns its address as the slot of an element, and from there on counts elements
beyond a capacity of zero without ever growing again.  Reachable arrays are the ones of
`Contents.lean` with the initial capacity 0 admitted; what holds of all of them is
`CwArray.Placed`, which, unlike `CwArray.Ok`, allows for such an array.
-/
import Capwap.Pool.Contents

namespace Capwap

/-! ## 1. The arrays that can be reached

With the capacity 0 admitted, `CwArray.Ok` no longer holds of every array: one without a capacity
has an empty area, and may count elements beyond it.  What is left is about the numbers of each
array alone (`CwArray.Placed`) and about the pool without its clients' regions, and this does hold
in every state reached. -/

/-- The numbers of an array, with any capacity: the element area ends in the user half.  Nothing is
said about `nelts` against `nalloc`. -/
structure CwArray.Placed (a : CwArray) : Prop where
  size_pos : 1 ≤ a.size
  size_lt : a.size < userTop
  elts_pos : 0 < a.elts
  stop_le : a.elts + a.nalloc * a.size ≤ userTop
  nelts_lt : a.nelts < wordSize

section
variable {a : CwArray}

/-- No product of the formulas wraps. -/
theorem CwArray.Placed.bounds (ha : a.Placed) :
    a.nalloc ≤ a.nalloc * a.size ∧ a.nalloc * a.size < userTop ∧
      wmul a.size a.nalloc = a.nalloc * a.size ∧
      wadd a.elts (wmul a.size a.nalloc) = a.elts + a.nalloc * a.size ∧
      wmul 2 (wmul a.size a.nalloc) = a.nalloc * 2 * a.size ∧ wmul a.nalloc 2 = a.nalloc * 2 := by
  have hpos := ha.elts_pos
  have hstop := ha.stop_le
  have hle : a.nalloc ≤ a.nalloc * a.size := Nat.le_mul_of_pos_right _ ha.size_pos
  have hlt : a.nalloc * a.size < userTop := by omega
  have hword : 2 * userTop = wordSize := rfl
  have hmul : wmul a.size a.nalloc = a.nalloc * a.size := by
    rw [Nat.mul_comm a.nalloc]
    refine wmul_eq ?_
    rw [Nat.mul_comm]
    omega
  have hadd : wadd a.elts (a.nalloc * a.size) = a.elts + a.nalloc * a.size := wadd_eq (by omega)
  have hdouble : wmul 2 (a.nalloc * a.size) = a.nalloc * 2 * a.size := by
    rw [wmul_eq (by omega), Nat.mul_comm a.nalloc 2, Nat.mul_assoc]
  rw [hmul]
  exact ⟨hle, hlt, rfl, hadd, hdouble, wmul_eq (by omega)⟩

theorem wadd_lt_wordSize (x y : Nat) : wadd x y < wordSize := Nat.mod_lt _ (by decide)

end

/-- Any block has room for no bytes, also one whose `last` has been aligned past its end: the
difference wraps to a large word. -/
theorem searchSmall_zero (A : Alignment) (align : Bool) (b : Block) (bs : List Block) :
    ∃ r, searchSmall A 0 align (b :: bs) = some r := by
  unfold searchSmall
  generalize (if align then alignPtr b.last A.bytes else b.last) = m
  exact ⟨_, if_pos (Nat.zero_le _)⟩

namespace Pool.Inv

variable {A : Alignment} {psize : Nat} {h : Heap} {p : Pool} {wholes other live : List Region}
variable {a : CwArray}

/-- The head's `last` moves forward inside the head block. -/
theorem moveLast (hI : p.Inv A psize h wholes other live) {n : Nat} (hle : p.head.last ≤ n)
    (hfin : n ≤ p.head.fin) : (p.setLast n).Inv A psize h wholes other live := by
  have hs : p.head.span sizeofPool ∈ p.spans := List.mem_cons_self
  have hlo := (hI.sound.span_ok _ hs).lo_le
  refine hI.of_setLast (hI.sound.move (head_span p) (Nat.le_trans hlo hle) hfin (fun _ hr => hr)
    (fun r _ hold => hold.below_of_le hle) hI.sound.live_apart)

/-- The head block ends in the user half. -/
theorem head_fin_le (hI : p.Inv A psize h wholes other live) :
    p.head.last ≤ p.head.fin ∧ p.head.fin ≤ userTop := by
  have hs : p.head.span sizeofPool ∈ p.spans := List.mem_cons_self
  exact ⟨(hI.sound.span_ok _ hs).le_hi, (hI.span_bounds hs).2.2.2⟩

/-- An array in front of which the pool moves `last` by `k` elements. -/
theorem extend (hI : p.Inv A psize h wholes other live) (ha : a.Placed) {k : Nat}
    (hk : k * a.size < userTop) (htop : wadd a.elts (wmul a.size a.nalloc) = p.head.last)
    (hfit : wadd p.head.last (k * a.size) ≤ p.head.fin) :
    (p.setLast (wadd p.head.last (k * a.size))).Inv A psize h wholes other live ∧
      CwArray.Placed { a with nalloc := wadd a.nalloc k, nelts := wadd a.nelts k } := by
  obtain ⟨hle, hlt, -, hadd, -, -⟩ := ha.bounds
  obtain ⟨hlast, hfin⟩ := hI.head_fin_le
  have hword : 2 * userTop = wordSize := rfl
  have hsum : wadd p.head.last (k * a.size) = p.head.last + k * a.size := wadd_eq (by omega)
  rw [hsum] at hfit ⊢
  have hcount : k ≤ k * a.size := Nat.le_mul_of_pos_right _ ha.size_pos
  have hnalloc : wadd a.nalloc k = a.nalloc + k := wadd_eq (by omega)
  refine ⟨hI.moveLast (Nat.le_add_right _ _) hfit, ha.size_pos, ha.size_lt, ha.elts_pos, ?_,
    wadd_lt_wordSize _ _⟩
  simp only [hnalloc, Nat.add_mul]
  omega

/-- An array that gets a new area of `nalloc` elements. -/
theorem replace (hI : p.Inv A psize h wholes other live) (ha : a.Placed) (nalloc : Nat)
    {k nelts : Nat} (hk : k = nalloc * a.size) (hn : nelts < wordSize) {new : Nat} {p' : Pool}
    {h' : Heap} (hr : palloc A p k h = (some new, p', h')) (n : Nat) :
    (∃ wholes', p'.Inv A psize (h'.memcpy new a.elts n) wholes' other live) ∧
      CwArray.Placed { a with elts := new, nalloc := nalloc, nelts := nelts } := by
  unfold palloc at hr
  obtain ⟨wholes', hinv, -, -⟩ := hI.entry hr
  have hstop := hinv.live_stop_le (r := ⟨new, k⟩) List.mem_cons_self
  have hpos := hinv.live_base_pos (r := ⟨new, k⟩) List.mem_cons_self
  subst hk
  exact ⟨⟨wholes', hinv.forget.of_bytes _⟩, ha.size_pos, ha.size_lt, hpos, hstop, hn⟩

/-- `cw_array_push` keeps the pool and the array's numbers, whatever the capacity. -/
theorem arrayPush_placed (hI : p.Inv A psize h wholes other live) (ha : a.Placed) :
    ∃ wholes', (Capwap.arrayPush A a p h).2.2.1.Inv A psize (Capwap.arrayPush A a p h).2.2.2
        wholes' other live ∧ (Capwap.arrayPush A a p h).2.1.Placed := by
  obtain ⟨hle, hlt, hmul, hadd, hdouble, hwn⟩ := ha.bounds
  unfold Capwap.arrayPush
  split
  · simp only
    split
    · rename_i hin
      have hone : 1 * a.size = a.size := Nat.one_mul _
      have hstep := hI.extend ha (k := 1) (by rw [hone]; exact ha.size_lt) hin.1
        (by rw [hone]; exact hin.2)
      rw [hone] at hstep
      exact ⟨wholes, hstep⟩
    · cases hr : palloc A p (wmul 2 (wmul a.size a.nalloc)) h with
      | mk ans rest =>
        obtain ⟨p', h'⟩ := rest
        cases ans with
        | none =>
          unfold palloc at hr
          exact ⟨wholes, (hI.entry_none hr).2.1, ha⟩
        | some new =>
          obtain ⟨⟨wholes', hinv⟩, hplaced⟩ := hI.replace ha (wmul a.nalloc 2)
            (by rw [hdouble, hwn]) (wadd_lt_wordSize a.nelts 1) hr (wmul a.size a.nalloc)
          exact ⟨wholes', hinv, hplaced⟩
  · exact ⟨wholes, hI, ha.size_pos, ha.size_lt, ha.elts_pos, ha.stop_le, wadd_lt_wordSize _ _⟩

/-- So does `cw_array_push_n`. -/
theorem arrayPushN_placed (hI : p.Inv A psize h wholes other live) (ha : a.Placed) {n : Nat}
    (hprod : 2 * (n ⊔ a.nalloc) * a.size < wordSize) :
    ∃ wholes', (Capwap.arrayPushN A a n p h).2.2.1.Inv A psize
        (Capwap.arrayPushN A a n p h).2.2.2 wholes' other live ∧
      (Capwap.arrayPushN A a n p h).2.1.Placed := by
  have hword : 2 * userTop = wordSize := rfl
  have hnsize : 2 * (n * a.size) ≤ 2 * (n ⊔ a.nalloc) * a.size := by
    rw [Nat.mul_assoc]
    exact Nat.mul_le_mul_left 2 (Nat.mul_le_mul_right _ (le_max_left _ _))
  have hcount : 2 * (n ⊔ a.nalloc) ≤ 2 * (n ⊔ a.nalloc) * a.size :=
    Nat.le_mul_of_pos_right _ ha.size_pos
  have hsize : wmul n a.size = n * a.size := wmul_eq (by omega)
  unfold Capwap.arrayPushN
  simp only [hsize]
  split
  · split
    · rename_i hin
      exact ⟨wholes, hI.extend ha (by omega) hin.1 hin.2⟩
    · have hmax : (if n ≥ a.nalloc then n else a.nalloc) = n ⊔ a.nalloc := by
        rw [max_def]
        split <;> split <;> omega
      have hnew : wmul 2 (n ⊔ a.nalloc) = 2 * (n ⊔ a.nalloc) := wmul_eq (by omega)
      rw [hmax, hnew, wmul_eq hprod]
      cases hr : palloc A p (2 * (n ⊔ a.nalloc) * a.size) h with
      | mk ans rest =>
        obtain ⟨p', h'⟩ := rest
        cases ans with
        | none =>
          unfold palloc at hr
          exact ⟨wholes, (hI.entry_none hr).2.1, ha⟩
        | some new =>
          obtain ⟨⟨wholes', hinv⟩, hplaced⟩ :=
            hI.replace ha _ rfl (wadd_lt_wordSize a.nelts n) hr (wmul a.nelts a.size)
          exact ⟨wholes', hinv, hplaced⟩
  · exact ⟨wholes, hI, ha.size_pos, ha.size_lt, ha.elts_pos, ha.stop_le, wadd_lt_wordSize _ _⟩

/-- `cw_array_init` makes an array with any capacity. -/
theorem arrayInit_placed (hI : p.Inv A psize h wholes other live) {n size : Nat} (hs : 1 ≤ size)
    (hprod : n * size < wordSize) (hzero : n = 0 → size < userTop) :
    (∃ wholes', (Capwap.arrayInit A p n size h).2.1.Inv A psize
        (Capwap.arrayInit A p n size h).2.2 wholes' other live) ∧
      ∀ arr, (Capwap.arrayInit A p n size h).1 = some arr → arr.Placed := by
  unfold Capwap.arrayInit
  rw [wmul_eq hprod]
  cases hr : palloc A p (n * size) h with
  | mk ans rest =>
    obtain ⟨p', h'⟩ := rest
    unfold palloc at hr
    cases ans with
    | none => exact ⟨⟨wholes, (hI.entry_none hr).2.1⟩, by rintro arr ⟨⟩⟩
    | some new =>
      obtain ⟨wholes', hinv, -, -⟩ := hI.entry hr
      have hstop := hinv.live_stop_le (r := ⟨new, n * size⟩) List.mem_cons_self
      have hpos := hinv.live_base_pos (r := ⟨new, n * size⟩) List.mem_cons_self
      refine ⟨⟨wholes', hinv.forget⟩, ?_⟩
      rintro arr ⟨⟩
      refine ⟨hs, show size < userTop from ?_, hpos, hstop, show 0 < wordSize by decide⟩
      rcases Nat.eq_zero_or_pos n with h0 | hn
      · exact hzero h0
      · have hle : size ≤ n * size := Nat.le_mul_of_pos_left _ hn
        simp only [Region.stop] at hstop hpos
        omega

/-- A request for no bytes succeeds. -/
theorem palloc_zero (hI : p.Inv A psize h wholes other live) :
    ∃ m p', palloc A p 0 h = (some m, p', h) := by
  have hlt := hI.current_lt
  unfold palloc
  rw [if_pos (Nat.zero_le _)]
  unfold pallocSmall
  cases hd : p.blocks.drop p.current with
  | nil =>
    have hlen := congrArg List.length hd
    simp only [List.length_drop, List.length_nil] at hlen
    omega
  | cons b bs =>
    obtain ⟨r, hr⟩ := searchSmall_zero A true b bs
    rw [hr]
    exact ⟨r.1, _, rfl⟩

end Pool.Inv

namespace ArrayWorld

variable {A : Alignment} {psize : Nat} {w : ArrayWorld} {wholes other : List Region}

/-- What holds in every world reached, whatever the capacities.  The clients' regions are left out
of the pool's invariant (`[]`): nothing is said here of who may write where. -/
structure Stable (A : Alignment) (psize : Nat) (w : ArrayWorld) (wholes other : List Region) :
    Prop where
  pool : w.pool.Inv A psize w.heap wholes other []
  arrays : ∀ a ∈ w.arrays, a.arr.Placed

theorem Stable.handOut (hS : w.Stable A psize wholes other) {size : Nat}
    {r : Option Nat × Pool × Heap} (hr : ∃ wholes', r.2.1.Inv A psize r.2.2 wholes' other []) :
    ∃ wholes', (w.handOut size r).2.Stable A psize wholes' other := by
  obtain ⟨wholes', hp⟩ := hr
  obtain ⟨ans, p, h⟩ := r
  cases ans <;> exact ⟨wholes', hp, hS.arrays⟩

theorem Stable.pushed (hS : w.Stable A psize wholes other) {i : Nat} {a : HeldArray}
    (vs : List (List UInt8)) {r : Option Nat × CwArray × Pool × Heap}
    (hr : ∃ wholes', r.2.2.1.Inv A psize r.2.2.2 wholes' other [] ∧ r.2.1.Placed) :
    ∃ wholes', (w.pushed i a vs r).2.Stable A psize wholes' other := by
  obtain ⟨wholes', hp, harr⟩ := hr
  obtain ⟨ans, arr, p, h⟩ := r
  have hset : ∀ elems, ∀ b ∈ w.arrays.set i { a with arr := arr, elems := elems },
      b.arr.Placed := by
    intro elems b hb
    rcases List.mem_or_eq_of_mem_set hb with hb | rfl
    · exact hS.arrays b hb
    · exact harr
  cases ans with
  | none => exact ⟨wholes', hp, hset a.elems⟩
  | some slot => exact ⟨wholes', hp.of_bytes _, hset (a.elems ++ vs)⟩

/-- What the plain allocations leave. -/
theorem entry_stable {p : Pool} {h : Heap} (hp : p.Inv A psize h wholes other []) (size : Nat)
    (align : Bool) :
    ∃ wholes', (if size ≤ p.max then pallocSmall A p size align h
        else pallocLarge A p size h).2.1.Inv A psize
      (if size ≤ p.max then pallocSmall A p size align h else pallocLarge A p size h).2.2
        wholes' other [] := by
  cases hr : (if size ≤ p.max then pallocSmall A p size align h else pallocLarge A p size h) with
  | mk ans rest =>
    obtain ⟨p', h'⟩ := rest
    cases ans with
    | none => exact ⟨wholes, (hp.entry_none hr).2.1⟩
    | some m =>
      obtain ⟨wholes', hinv, -, -⟩ := hp.entry hr
      exact ⟨wholes', hinv.forget⟩

/-- Every operation keeps it, with arrays of capacity 0 among them. -/
theorem Stable.step (hS : w.Stable A psize wholes other) {op : ArrayOp} (hop : w.Admits 0 op) :
    ∃ wholes', (w.step A op).2.Stable A psize wholes' other := by
  cases op with
  | palloc size => exact hS.handOut (entry_stable hS.pool size true)
  | pnalloc size => exact hS.handOut (entry_stable hS.pool size false)
  | pcalloc size =>
    obtain ⟨wholes', hp⟩ := entry_stable hS.pool size true
    refine hS.handOut ⟨wholes', ?_⟩
    unfold Capwap.pcalloc palloc
    split <;> rename_i hr <;> rw [hr] at hp
    · exact hp.of_bytes _
    · exact hp
  | write i offset data =>
    simp only [ArrayWorld.step]
    split
    · exact ⟨wholes, hS⟩
    · exact ⟨wholes, hS.pool.of_bytes _, hS.arrays⟩
  | create n size =>
    obtain ⟨-, hs, hprod, hzero⟩ := hop
    simp only [ArrayWorld.step, Capwap.arrayCreate]
    obtain ⟨wholes₁, hp₁⟩ := entry_stable hS.pool sizeofArray true
    cases hr : palloc A w.pool sizeofArray w.heap with
    | mk ans rest =>
      obtain ⟨p₁, h₁⟩ := rest
      unfold palloc at hr
      rw [hr] at hp₁
      cases ans with
      | none => exact ⟨wholes₁, hp₁, hS.arrays⟩
      | some self =>
        obtain ⟨⟨wholes₂, hp₂⟩, harr⟩ := hp₁.arrayInit_placed hs hprod hzero
        simp only
        cases hr₂ : Capwap.arrayInit A p₁ n size h₁ with
        | mk ans₂ rest₂ =>
          obtain ⟨p₂, h₂⟩ := rest₂
          rw [hr₂] at hp₂ harr
          cases ans₂ with
          | none => exact ⟨wholes₂, hp₂, hS.arrays⟩
          | some arr =>
            refine ⟨wholes₂, hp₂, fun b hb => ?_⟩
            rcases List.mem_cons.mp hb with rfl | hb
            · exact harr arr rfl
            · exact hS.arrays b hb
  | init n size =>
    obtain ⟨-, hs, hprod, hzero⟩ := hop
    obtain ⟨⟨wholes', hp⟩, harr⟩ := hS.pool.arrayInit_placed hs hprod hzero
    simp only [ArrayWorld.step]
    cases hr : Capwap.arrayInit A w.pool n size w.heap with
    | mk ans rest =>
      obtain ⟨p', h'⟩ := rest
      rw [hr] at hp harr
      cases ans with
      | none => exact ⟨wholes', hp, hS.arrays⟩
      | some arr =>
        refine ⟨wholes', hp, fun b hb => ?_⟩
        rcases List.mem_cons.mp hb with rfl | hb
        · exact harr arr rfl
        · exact hS.arrays b hb
  | push i v =>
    simp only [ArrayWorld.step]
    cases ha : w.arrays[i]? with
    | none => exact ⟨wholes, hS⟩
    | some a =>
      have hplaced := hS.arrays a (List.mem_of_getElem? ha)
      exact hS.pushed [v] (hS.pool.arrayPush_placed hplaced)
  | pushN i vs =>
    simp only [ArrayWorld.step]
    cases ha : w.arrays[i]? with
    | none => exact ⟨wholes, hS⟩
    | some a =>
      have hplaced := hS.arrays a (List.mem_of_getElem? ha)
      exact hS.pushed vs (hS.pool.arrayPushN_placed hplaced (hop a ha).2)

theorem Reach.stable {w₀ : ArrayWorld} (hr : Reach A 0 w₀ w)
    (h₀ : w₀.Stable A psize wholes other) : ∃ wholes', w.Stable A psize wholes' other := by
  induction hr with
  | refl => exact ⟨wholes, h₀⟩
  | tail _ hop ih =>
    obtain ⟨wholes', hS⟩ := ih
    exact hS.step hop

end ArrayWorld

/-! ## 2. When the two pushes agree

The two functions are compared on the same array, pool and heap, and everything a caller can see of
the result is compared.  Where the array has a capacity the two formulas give the same numbers;
where it has none they agree only as long as the array can be made longer in place. -/

/-- The array is full, ends at the head's `last`, and there is room behind it for one element.  It
is the condition that both functions test, on words as they do. -/
def CwArray.InPlace (a : CwArray) (p : Pool) : Prop :=
  wadd a.elts (wmul a.size a.nalloc) = p.head.last ∧ wadd p.head.last a.size ≤ p.head.fin

/-- What `cw_array_push(a)` and `cw_array_push_n(a, 1)` do from one state is the same: both return
`NULL`, or both a slot in the array's element area, and they leave the same counts, the same
`last` of every block, and the same earlier elements. -/
structure PushesAgree (A : Alignment) (a : CwArray) (p : Pool) (h : Heap) : Prop where
  result : ((arrayPush A a p h).1 = none ∧ (arrayPushN A a 1 p h).1 = none) ∨
    ∃ slot slot', (arrayPush A a p h).1 = some slot ∧ (arrayPushN A a 1 p h).1 = some slot' ∧
      Region.Inside ⟨slot, a.size⟩ (arrayPush A a p h).2.1.area ∧
      Region.Inside ⟨slot', a.size⟩ (arrayPushN A a 1 p h).2.1.area
  nelts : (arrayPush A a p h).2.1.nelts = (arrayPushN A a 1 p h).2.1.nelts
  nalloc : (arrayPush A a p h).2.1.nalloc = (arrayPushN A a 1 p h).2.1.nalloc
  last : (arrayPush A a p h).2.2.1.blocks.map Block.last
    = (arrayPushN A a 1 p h).2.2.1.blocks.map Block.last
  contents : Bytes.rows (arrayPush A a p h).2.2.2.bytes (arrayPush A a p h).2.1.elts a.size a.nelts
    = Bytes.rows (arrayPushN A a 1 p h).2.2.2.bytes (arrayPushN A a 1 p h).2.1.elts a.size a.nelts

section
variable {A : Alignment} {psize : Nat} {a : CwArray} {p : Pool} {h : Heap}
  {wholes other live : List Region}

/-- For an array that has a capacity, or grows in place, the two are one function: `nelts` is
`nalloc` when the array is full, so the two counts that are copied are the same. -/
theorem arrayPush_eq_arrayPushN (ha : a.Placed) (hle : a.nelts ≤ a.nalloc)
    (hcap : a.nalloc ≠ 0 ∨ a.InPlace p) : arrayPush A a p h = arrayPushN A a 1 p h := by
  obtain ⟨hcount, hlt, hmul, hadd, hdouble, hwn⟩ := ha.bounds
  have hword : 2 * userTop = wordSize := rfl
  have hsize := ha.size_lt
  have hone : wmul 1 a.size = a.size := by rw [wmul_eq (by omega), Nat.one_mul]
  have hnext : wadd a.nelts 1 = a.nelts + 1 := wadd_eq (by omega)
  unfold arrayPush arrayPushN
  simp only [hone]
  by_cases hfull : a.nelts = a.nalloc
  · rw [if_pos hfull, if_pos (show wadd a.nelts 1 > a.nalloc by omega)]
    by_cases hin : a.InPlace p
    · unfold CwArray.InPlace at hin
      rw [if_pos hin, if_pos hin]
    · have hpos : a.nalloc ≠ 0 := hcap.resolve_right hin
      have hmax : (if 1 ≥ a.nalloc then 1 else a.nalloc) = a.nalloc := by
        split <;> omega
      have hnew : wmul 2 a.nalloc = wmul a.nalloc 2 := by
        unfold wmul
        rw [Nat.mul_comm]
      have hbytes : wmul (wmul a.nalloc 2) a.size = wmul 2 (wmul a.size a.nalloc) := by
        rw [hdouble, hwn, wmul_eq]
        rw [Nat.mul_comm a.nalloc 2, Nat.mul_assoc]
        omega
      have hcopy : wmul a.nelts a.size = wmul a.size a.nalloc := by
        unfold wmul
        rw [hfull, Nat.mul_comm]
      unfold CwArray.InPlace at hin
      rw [if_neg hin, if_neg hin, hmax, hnew, hbytes, hcopy]
  · rw [if_neg hfull, if_neg (show ¬ wadd a.nelts 1 > a.nalloc by omega)]

/-- A push on an array that has a capacity, or grows in place, returns a slot in its area. -/
theorem arrayPush_inside (hI : p.Inv A psize h wholes other live) (ha : a.Placed)
    (hle : a.nelts ≤ a.nalloc) (hcap : a.nalloc ≠ 0 ∨ a.InPlace p) {slot : Nat}
    (hr : (arrayPush A a p h).1 = some slot) :
    Region.Inside ⟨slot, a.size⟩ (arrayPush A a p h).2.1.area := by
  obtain ⟨hcount, hlt, hmul, hadd, hdouble, hwn⟩ := ha.bounds
  have hword : 2 * userTop = wordSize := rfl
  -- the slot behind the elements, in an area with room for one more
  have hslot : ∀ elts nalloc, a.nelts + 1 ≤ nalloc → elts + a.nalloc * a.size ≤ userTop →
      Region.Inside ⟨wadd elts (wmul a.size a.nelts), a.size⟩ ⟨elts, nalloc * a.size⟩ := by
    intro elts nalloc hroom htop
    have hmul : a.nelts * a.size ≤ a.nalloc * a.size := Nat.mul_le_mul_right _ hle
    have hmore : (a.nelts + 1) * a.size ≤ nalloc * a.size := Nat.mul_le_mul_right _ hroom
    rw [Nat.add_mul, Nat.one_mul] at hmore
    rw [Pool.Inv.slot_eq hmul htop]
    unfold Region.Inside Region.stop
    simp only
    omega
  unfold arrayPush at hr ⊢
  by_cases hfull : a.nelts = a.nalloc
  · rw [if_pos hfull] at hr ⊢
    simp only at hr ⊢
    by_cases hin : a.InPlace p
    · unfold CwArray.InPlace at hin
      rw [if_pos hin] at hr ⊢
      obtain rfl := Option.some.inj hr
      have hnalloc : wadd a.nalloc 1 = a.nalloc + 1 := wadd_eq (by omega)
      unfold CwArray.area
      simp only [hnalloc]
      exact hslot a.elts (a.nalloc + 1) (by omega) ha.stop_le
    · have hpos : a.nalloc ≠ 0 := hcap.resolve_right hin
      unfold CwArray.InPlace at hin
      rw [if_neg hin] at hr ⊢
      cases hq : palloc A p (wmul 2 (wmul a.size a.nalloc)) h with
      | mk ans rest =>
        obtain ⟨p', h'⟩ := rest
        rw [hq] at hr
        cases ans with
        | none => cases hr
        | some new =>
          obtain ⟨-, hplaced⟩ := hI.replace ha (wmul a.nalloc 2)
            (by rw [hdouble, hwn]) ha.nelts_lt hq 0
          have hstop := hplaced.stop_le
          simp only [hwn] at hstop
          obtain rfl := Option.some.inj hr
          unfold CwArray.area
          simp only [hwn]
          refine hslot new _ (by omega) (Nat.le_trans ?_ hstop)
          exact Nat.add_le_add_left (Nat.mul_le_mul_right _ (by omega)) _
  · rw [if_neg hfull] at hr ⊢
    obtain rfl := Option.some.inj hr
    exact hslot a.elts a.nalloc (by omega) ha.stop_le

/-- An array with no capacity that does not grow in place gets a slot outside its area, which is
empty still.  So the two pushes cannot agree on one. -/
theorem PushesAgree.capacity (hI : p.Inv A psize h wholes other live) (ha : a.Placed)
    (hagree : PushesAgree A a p h) (hle : a.nelts ≤ a.nalloc) :
    a.nalloc ≠ 0 ∨ a.InPlace p := by
  by_contra hnot
  obtain ⟨hzero, hin⟩ := not_or.mp hnot
  have hempty : a.nalloc = 0 := not_not.mp hzero
  have hnone : a.nelts = 0 := by omega
  obtain ⟨new, p', hq⟩ := hI.palloc_zero
  have hpush : arrayPush A a p h = (some (wadd new (wmul a.size a.nelts)),
      { a with elts := new, nalloc := wmul a.nalloc 2, nelts := wadd a.nelts 1 }, p',
      h.memcpy new a.elts (wmul a.size a.nalloc)) := by
    have hbytes : wmul 2 (wmul a.size a.nalloc) = 0 := by
      rw [hempty]
      rfl
    unfold CwArray.InPlace at hin
    unfold arrayPush
    rw [if_pos (hnone.trans hempty.symm)]
    simp only
    rw [if_neg hin, hbytes, hq]
  have hsize := ha.size_pos
  rcases hagree.result with ⟨hnull, -⟩ | ⟨slot, slot', -, -, hinside, -⟩
  · rw [hpush] at hnull
    cases hnull
  · have hcap : wmul a.nalloc 2 = 0 := by
      rw [hempty]
      rfl
    rw [hpush] at hinside
    obtain ⟨hbase, hstop⟩ := hinside
    simp only [CwArray.area, Region.stop, hcap, Nat.zero_mul] at hbase hstop
    omega

/-- An array that counts more elements than its capacity has lost its way: `cw_array_push` tests
whether the counts are equal, and they never will be again, while `cw_array_push_n` compares
them. -/
theorem PushesAgree.nelts_le (ha : a.Placed) (hagree : PushesAgree A a p h) :
    a.nelts ≤ a.nalloc := by
  by_contra hover
  obtain ⟨hcount, hlt, -, -, -, -⟩ := ha.bounds
  have hword : 2 * userTop = wordSize := rfl
  have hpush : arrayPush A a p h = (some (wadd a.elts (wmul a.size a.nelts)),
      { a with nelts := wadd a.nelts 1 }, p, h) := by
    unfold arrayPush
    rw [if_neg (by omega)]
  rcases hagree.result with ⟨hnull, -⟩ | ⟨slot, slot', hslot, hslot', hinside, -⟩
  · rw [hpush] at hnull
    cases hnull
  · have hnalloc := hagree.nalloc
    rw [hpush] at hnalloc
    rcases Nat.lt_or_ge (a.nelts + 1) wordSize with hnext | hlast
    · -- the bulk push grows: its capacity is another
      have hfull : wadd a.nelts 1 > a.nalloc := by
        rw [wadd_eq hnext]
        omega
      unfold arrayPushN at hnalloc hslot'
      simp only [if_pos hfull] at hnalloc hslot'
      split at hnalloc
      · rename_i hin
        have hone : wadd a.nalloc 1 = a.nalloc + 1 := wadd_eq (by omega)
        simp only [hone] at hnalloc
        omega
      · rename_i hin
        rw [if_neg hin] at hslot'
        split at hnalloc
        · rename_i hq
          rw [hq] at hslot'
          cases hslot'
        · have hdouble : wmul 2 (if 1 ≥ a.nalloc then 1 else a.nalloc)
              = 2 * (if 1 ≥ a.nalloc then 1 else a.nalloc) := by
            refine wmul_eq ?_
            split <;> omega
          simp only [hdouble] at hnalloc
          split at hnalloc <;> omega
    · -- at the largest count the slot is in front of the area
      have hmax : a.nelts = wordSize - 1 := by
        have := ha.nelts_lt
        omega
      have hback : wmul a.size a.nelts = wordSize - a.size := by
        have hsize := ha.size_pos
        have hlt := ha.size_lt
        have hexpand : a.size * a.nelts = (wordSize - a.size) + wordSize * (a.size - 1) := by
          obtain ⟨s, hs⟩ : ∃ s, a.size = s + 1 := ⟨a.size - 1, by omega⟩
          obtain ⟨u, hu⟩ : ∃ u, wordSize = u + 1 := ⟨wordSize - 1, by omega⟩
          have hsu : s ≤ u := by omega
          rw [hmax, hs, hu, Nat.add_sub_cancel, Nat.add_sub_cancel, Nat.add_sub_add_right]
          calc (s + 1) * u
              _ = s * u + u := by rw [Nat.add_mul, Nat.one_mul]
              _ = (u - s) + (s * u + s) := by omega
              _ = (u - s) + (u + 1) * s := by rw [Nat.add_mul u 1 s, Nat.one_mul, Nat.mul_comm u s]
        unfold wmul
        rw [hexpand, Nat.add_mul_mod_self_left]
        exact Nat.mod_eq_of_lt (by omega)
      rw [hpush] at hslot hinside
      obtain rfl := Option.some.inj hslot
      have hstop := ha.stop_le
      have hsize := ha.size_lt
      have hpos := ha.size_pos
      obtain ⟨hbase, hend⟩ := hinside
      simp only [CwArray.area, Region.stop, hback] at hbase hend
      unfold wadd at hbase hend
      rcases Nat.lt_or_ge (a.elts + (wordSize - a.size)) wordSize with hsum | hsum
      · rw [Nat.mod_eq_of_lt hsum] at hbase hend
        omega
      · rw [Nat.mod_eq_sub_mod hsum, Nat.mod_eq_of_lt (by omega)] at hbase hend
        omega

end

/-- The two pushes agree just when the array counts no more elements than its capacity, and has a
capacity or grows in place.  For every array that can be reached, made with any capacity and pushed
on in any way, among any other allocations, and every pattern of answers of the heap.  An array
made with a capacity always satisfies the condition; one made with none does not, as soon as
something has been allocated behind it. -/
theorem pushesAgree_iff {A : Alignment} {size : Nat} {h : Heap} {w₀ w : ArrayWorld} (hok : h.Ok)
    (hge : sizeofPool ≤ size) (hdvd : A.bytes ∣ size) (hc : ArrayWorld.create size h = some w₀)
    (hr : ArrayWorld.Reach A 0 w₀ w) {a : HeldArray} (ha : a ∈ w.arrays) :
    PushesAgree A a.arr w.pool w.heap ↔
      a.arr.nelts ≤ a.arr.nalloc ∧ (a.arr.nalloc ≠ 0 ∨ a.arr.InPlace w.pool) := by
  have hinv := ArrayWorld.create_inv hok hge hdvd hc
  have hstart : w₀.Stable A size [] h.live := by
    refine ⟨hinv.pool.of_live (List.Perm.refl _) (List.nil_sublist _), fun b hb => ?_⟩
    unfold ArrayWorld.create at hc
    split at hc
    · cases hc
    · cases hc
      cases hb
  obtain ⟨wholes, hS⟩ := hr.stable hstart
  have hplaced := hS.arrays a ha
  constructor
  · intro hagree
    have hle := hagree.nelts_le hplaced
    exact ⟨hle, hagree.capacity hS.pool hplaced hle⟩
  · rintro ⟨hle, hcap⟩
    have heq := arrayPush_eq_arrayPushN (A := A) (h := w.heap) hplaced hle hcap
    refine ⟨?_, by rw [heq], by rw [heq], by rw [heq], by rw [heq]⟩
    cases hslot : (arrayPush A a.arr w.pool w.heap).1 with
    | none => exact Or.inl ⟨rfl, heq ▸ hslot⟩
    | some slot =>
      have hin := arrayPush_inside hS.pool hplaced hle hcap hslot
      exact Or.inr ⟨slot, slot, rfl, heq ▸ hslot, hin, heq ▸ hin⟩

/-- A heap that grants every request. -/
def sampleHeap : Heap := Heap.fresh fun n => some (4096 * (n + 1))

/-- A pool of 1024 bytes. -/
def samplePool : ArrayWorld where
  heap := (createPool 1024 sampleHeap).2
  pool := (createPool 1024 sampleHeap).1.getD ⟨⟨0, 0, 0, 0⟩, [], 0, 0, []⟩
  plain := []
  arrays := []

/-- An array of capacity `n` for elements of 8 bytes, with some allocation behind it. -/
def sampleArray (n : Nat) : ArrayWorld :=
  ((samplePool.step .word (.init n 8)).2.step .word (.palloc 5)).2

theorem sampleArray_reach {n : Nat} (hn : n * 8 < wordSize) :
    ArrayWorld.Reach .word 0 samplePool (sampleArray n) := by
  have hinit : samplePool.Admits 0 (.init n 8) :=
    ⟨Nat.zero_le n, by decide, hn, fun _ => by decide⟩
  have halloc : ArrayWorld.Admits 0 (samplePool.step .word (.init n 8)).2 (.palloc 5) :=
    show 5 < wordSize by decide
  exact ((ArrayWorld.Reach.refl _).tail hinit).tail halloc

/-- The statement for an array of capacity 2. -/
theorem pushesAgree_iff_sample : ∃ a ∈ (sampleArray 2).arrays,
    PushesAgree .word a.arr (sampleArray 2).pool (sampleArray 2).heap :=
  ⟨⟨[], ⟨4176, 0, 8, 2⟩, []⟩, List.mem_singleton.mpr rfl,
    (pushesAgree_iff (Heap.fresh_ok _) (show sizeofPool ≤ 1024 by decide) (by decide)
      (show ArrayWorld.create 1024 sampleHeap = some samplePool from rfl)
      (sampleArray_reach (by decide)) (List.mem_singleton.mpr rfl)).mpr
      ⟨by decide, Or.inl (by decide)⟩⟩

/-- An array of capacity 0 gets none from one push, and a capacity of two from the other. -/
theorem emptyArray_disagrees : ArrayWorld.Reach .word 0 samplePool (sampleArray 0) ∧
    ∃ a ∈ (sampleArray 0).arrays,
      ¬ PushesAgree .word a.arr (sampleArray 0).pool (sampleArray 0).heap := by
  refine ⟨sampleArray_reach (by decide), ⟨[], ⟨4176, 0, 8, 0⟩, []⟩, List.mem_singleton.mpr rfl, ?_⟩
  intro hagree
  have hnalloc := hagree.nalloc
  revert hnalloc
  decide +kernel

end Capwap
