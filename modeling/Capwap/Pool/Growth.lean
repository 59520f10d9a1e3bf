/-
# What growing arrays costs

An array that is full, and whose element area does not end at the head's `last` or has no room
behind it, moves to a new area of the pool, twice as large as the old one or as what is pushed; the
old one is lost until the pool goes.  So one push may copy any number of bytes and leave as many
behind.

Over a whole run the pushes are cheap nevertheless (`arrays_linear`): whatever calls are made on the
pool, in any order and with any answers of the heap, the bytes copied are at most twice the bytes of
the elements pushed, and the bytes the pool hands out for element areas at most four times these and
the areas the arrays were made with.  The potential of an array is what its elements are more than
half its capacity, counted double.
-/
import Capwap.Pool.Runs
import Capwap.Lib.Amortised

namespace Capwap

/-! ## 1. The bill of a call

The bill is computed from the state before the call, with the same tests as the call itself.
`Grown` in section 2 ties it to the call: the numbers of the array after it, and the bytes copied,
are what the bill says. -/

/-- What a call copies (`cw_memcpy`'s count), what it takes from the pool for element areas, what
of it is an array's first area, and the bytes of the elements it hands out. -/
structure Bill where
  copied : Nat
  taken : Nat
  made : Nat
  pushed : Nat
deriving DecidableEq, Repr

/-- A call that copies nothing and takes nothing, as one that fails does. -/
def Bill.zero : Bill := ⟨0, 0, 0, 0⟩

/-- The bill of `cw_array_push`. -/
def arrayPushBill (A : Alignment) (a : CwArray) (p : Pool) (h : Heap) : Bill :=
  if a.nelts = a.nalloc then
    let size := wmul a.size a.nalloc
    if wadd a.elts size = p.head.last ∧ wadd p.head.last a.size ≤ p.head.fin then
      ⟨0, a.size, 0, a.size⟩
    else
      match palloc A p (wmul 2 size) h with
      | (none, _, _) => .zero
      | (some _, _, _) => ⟨size, wmul 2 size, 0, a.size⟩
  else ⟨0, 0, 0, a.size⟩

/-- The bill of `cw_array_push_n`. -/
def arrayPushNBill (A : Alignment) (a : CwArray) (n : Nat) (p : Pool) (h : Heap) : Bill :=
  let size := wmul n a.size
  if wadd a.nelts n > a.nalloc then
    if wadd a.elts (wmul a.size a.nalloc) = p.head.last ∧ wadd p.head.last size ≤ p.head.fin then
      ⟨0, size, 0, size⟩
    else
      let nalloc := wmul 2 (if n ≥ a.nalloc then n else a.nalloc)
      match palloc A p (wmul nalloc a.size) h with
      | (none, _, _) => .zero
      | (some _, _, _) => ⟨wmul a.nelts a.size, wmul nalloc a.size, 0, size⟩
  else ⟨0, 0, 0, size⟩

/-- The bill of a call on a pool. -/
def PoolWorld.bill (A : Alignment) (w : PoolWorld) : PoolOp → Bill
  | .arrayCreate n size =>
    match arrayCreate A w.pool n size w.heap with
    | (none, _, _) => .zero
    | (some _, _, _) => ⟨0, wmul n size, wmul n size, 0⟩
  | .arrayPush i =>
    match w.arrays[i]? with
    | none => .zero
    | some a => arrayPushBill A a.arr w.pool w.heap
  | .arrayPushN i n =>
    match w.arrays[i]? with
    | none => .zero
    | some a => arrayPushNBill A a.arr n w.pool w.heap
  | _ => .zero

/-! ## 2. The ways an array grows

There are four outcomes of a push, and everything the argument needs about one is the numbers
before and after with the bill.  After these lemmas neither `cw_array_push` nor `cw_array_push_n`
is unfolded again. -/

/-- What a push of `n` elements does to the numbers of an array, and its bill. -/
inductive CwArray.Grown (a : CwArray) (n : Nat) : CwArray → Bill → Prop
  /-- there is no memory -/
  | fails : Grown a n a .zero
  /-- the array has room -/
  | fits : a.nelts + n ≤ a.nalloc →
      Grown a n { a with nelts := a.nelts + n } ⟨0, 0, 0, n * a.size⟩
  /-- the area is made longer where it is -/
  | lengthens : a.nalloc < a.nelts + n →
      Grown a n { a with nalloc := a.nalloc + n, nelts := a.nelts + n }
        ⟨0, n * a.size, 0, n * a.size⟩
  /-- the elements move to an area of twice the larger of capacity and count -/
  | moves (new : Nat) : a.nalloc < a.nelts + n →
      Grown a n { a with elts := new, nalloc := 2 * (n ⊔ a.nalloc), nelts := a.nelts + n }
        ⟨a.nelts * a.size, 2 * (n ⊔ a.nalloc) * a.size, 0, n * a.size⟩

theorem Heap.memcpy_zero (h : Heap) (dst src : Nat) : (h.memcpy dst src 0).bytes = h.bytes := by
  funext x
  exact if_neg (by omega)

section
variable {A : Alignment} {psize : Nat} {a : CwArray} {p : Pool} {h : Heap}
  {wholes other live : List Region}

/-- `cw_array_push` grows an array by one element, and copies what its bill says. -/
theorem Pool.Inv.arrayPush_grown (hI : p.Inv A psize h wholes other (a.area :: live)) (ha : a.Ok) :
    a.Grown 1 (Capwap.arrayPush A a p h).2.1 (arrayPushBill A a p h) ∧
      (Capwap.arrayPush A a p h).2.2.2.bytes = (h.memcpy (Capwap.arrayPush A a p h).2.1.elts a.elts
        (arrayPushBill A a p h).copied).bytes := by
  obtain ⟨htop, hn, hs, hmul, helts, hdouble⟩ := hI.area_bounds ha
  have hnelts := ha.nelts_le
  have hcap := ha.nalloc_pos
  have hone : wadd a.nelts 1 = a.nelts + 1 := wadd_eq (by omega)
  have hnext : wadd a.nalloc 1 = a.nalloc + 1 := wadd_eq (by omega)
  have hsize : 1 * a.size = a.size := Nat.one_mul _
  unfold Capwap.arrayPush arrayPushBill
  by_cases hfull : a.nelts = a.nalloc
  · rw [if_pos hfull, if_pos hfull]
    simp only
    by_cases hin : wadd a.elts (wmul a.size a.nalloc) = p.head.last ∧
        wadd p.head.last a.size ≤ p.head.fin
    · rw [if_pos hin, if_pos hin, hone, hnext]
      have hgrown := CwArray.Grown.lengthens (a := a) (n := 1) (by omega)
      rw [hsize] at hgrown
      exact ⟨hgrown, (h.memcpy_zero _ _).symm⟩
    · rw [if_neg hin, if_neg hin]
      have hmax : 1 ⊔ a.nalloc = a.nalloc := max_eq_right hcap
      have hbytes : wmul 2 (wmul a.size a.nalloc) = 2 * (1 ⊔ a.nalloc) * a.size := by
        rw [hmul, wmul_eq hdouble, hmax, Nat.mul_assoc]
      have hwn : wmul a.nalloc 2 = 2 * (1 ⊔ a.nalloc) := by
        rw [wmul_eq (by omega), hmax, Nat.mul_comm]
      have hcopy : wmul a.size a.nalloc = a.nelts * a.size := by rw [hmul, hfull]
      rcases hq : palloc A p (wmul 2 (wmul a.size a.nalloc)) h with ⟨_ | new, p', h'⟩
      · unfold palloc at hq
        obtain ⟨-, -, -, hsame⟩ := hI.entry_none hq
        exact ⟨.fails, hsame.trans (h.memcpy_zero _ _).symm⟩
      · unfold palloc at hq
        obtain ⟨-, -, -, hsame⟩ := hI.entry hq
        simp only [hone, hwn, hbytes]
        rw [hcopy]
        have hgrown := CwArray.Grown.moves (a := a) (n := 1) new (by omega)
        rw [hsize] at hgrown
        refine ⟨hgrown, ?_⟩
        unfold Heap.memcpy
        rw [hsame]
  · rw [if_neg hfull, if_neg hfull, hone]
    have hgrown := CwArray.Grown.fits (a := a) (n := 1) (by omega)
    rw [hsize] at hgrown
    exact ⟨hgrown, (h.memcpy_zero _ _).symm⟩

/-- `cw_array_push_n` grows it by `n`.  The hypothesis is the caller's, that the count asked for
when the array moves fits in `size_t`. -/
theorem Pool.Inv.arrayPushN_grown (hI : p.Inv A psize h wholes other (a.area :: live)) (ha : a.Ok)
    {n : Nat} (hprod : 2 * (n ⊔ a.nalloc) * a.size < wordSize) :
    a.Grown n (Capwap.arrayPushN A a n p h).2.1 (arrayPushNBill A a n p h) ∧
      (Capwap.arrayPushN A a n p h).2.2.2.bytes = (h.memcpy
        (Capwap.arrayPushN A a n p h).2.1.elts a.elts (arrayPushNBill A a n p h).copied).bytes := by
  have hnelts := ha.nelts_le
  have hcount : 2 * (n ⊔ a.nalloc) ≤ 2 * (n ⊔ a.nalloc) * a.size :=
    Nat.le_mul_of_pos_right _ ha.size_pos
  have hnsize : 2 * (n * a.size) ≤ 2 * (n ⊔ a.nalloc) * a.size := by
    rw [Nat.mul_assoc]
    exact Nat.mul_le_mul_left 2 (Nat.mul_le_mul_right _ (le_max_left _ _))
  have hcopy : 2 * (a.nelts * a.size) ≤ 2 * (n ⊔ a.nalloc) * a.size := by
    rw [Nat.mul_assoc]
    exact Nat.mul_le_mul_left 2 (Nat.mul_le_mul_right _ (le_trans hnelts (le_max_right _ _)))
  have hle := le_max_left n a.nalloc
  have hle' := le_max_right n a.nalloc
  have hsum : wadd a.nelts n = a.nelts + n := wadd_eq (by omega)
  have hlong : wadd a.nalloc n = a.nalloc + n := wadd_eq (by omega)
  have hsize : wmul n a.size = n * a.size := wmul_eq (by omega)
  have hmove : wmul a.nelts a.size = a.nelts * a.size := wmul_eq (by omega)
  have hmax : (if n ≥ a.nalloc then n else a.nalloc) = n ⊔ a.nalloc := by
    rw [max_def]
    split <;> split <;> omega
  have hnew : wmul 2 (n ⊔ a.nalloc) = 2 * (n ⊔ a.nalloc) := wmul_eq (by omega)
  unfold Capwap.arrayPushN arrayPushNBill
  simp only [hsum, hlong, hsize, hmove, hmax, hnew, wmul_eq hprod]
  by_cases hfull : a.nelts + n > a.nalloc
  · rw [if_pos hfull, if_pos hfull]
    by_cases hin : wadd a.elts (wmul a.size a.nalloc) = p.head.last ∧
        wadd p.head.last (n * a.size) ≤ p.head.fin
    · rw [if_pos hin, if_pos hin]
      exact ⟨.lengthens hfull, (h.memcpy_zero _ _).symm⟩
    · rw [if_neg hin, if_neg hin]
      rcases hq : palloc A p (2 * (n ⊔ a.nalloc) * a.size) h with ⟨_ | new, p', h'⟩
      · unfold palloc at hq
        obtain ⟨-, -, -, hsame⟩ := hI.entry_none hq
        exact ⟨.fails, hsame.trans (h.memcpy_zero _ _).symm⟩
      · unfold palloc at hq
        obtain ⟨-, -, -, hsame⟩ := hI.entry hq
        refine ⟨.moves new hfull, ?_⟩
        simp only [Heap.memcpy, hsame]
  · rw [if_neg hfull, if_neg hfull]
    exact ⟨.fits (by omega), (h.memcpy_zero _ _).symm⟩

end

/-- An array is made empty, with the capacity that was asked for. -/
theorem arrayCreate_some {A : Alignment} {p p' : Pool} {n size self : Nat} {arr : CwArray}
    {h h' : Heap} (hr : arrayCreate A p n size h = (some (self, arr), p', h')) :
    ∃ elts, arr = ⟨elts, 0, size, n⟩ := by
  unfold arrayCreate arrayInit at hr
  rcases hq : palloc A p sizeofArray h with ⟨_ | m, p₁, h₁⟩
  · rw [hq] at hr
    cases hr
  · rw [hq] at hr
    simp only at hr
    rcases hq₁ : palloc A p₁ (wmul n size) h₁ with ⟨_ | elts, p₂, h₂⟩
    · rw [hq₁] at hr
      cases hr
    · rw [hq₁] at hr
      cases hr
      exact ⟨elts, rfl⟩

/-! ## 3. Potentials

An array that has moved for one element is about half full, so about as many cheap pushes lie ahead
of it as it has elements.  `overfull` counts the elements beyond the half, twice: each push adds
two, and when the array is full they are as many as the next move copies.  The four cases are
inequalities between counts, times the size of an element. -/

/-- One number of the bills covers another, with a potential of the arrays: whichever way an array
grows, and when it is made. -/
structure Pays (cost charge : Bill → Nat) (potential : CwArray → Nat) : Prop where
  zero : cost .zero ≤ charge .zero
  grown : ∀ {a a' : CwArray} {n : Nat} {b : Bill}, a.Ok → a.Grown n a' b →
    cost b + potential a' ≤ charge b + potential a
  made : ∀ elts size nalloc : Nat,
    cost ⟨0, nalloc * size, nalloc * size, 0⟩ + potential ⟨elts, 0, size, nalloc⟩
      ≤ charge ⟨0, nalloc * size, nalloc * size, 0⟩

/-- Twice the elements that are more than half the capacity, in bytes. -/
def CwArray.overfull (a : CwArray) : Nat := (2 * a.nelts - a.nalloc) * a.size

/-- Twice the bytes pushed pay for the bytes copied. -/
theorem pays_copied : Pays Bill.copied (fun b => 2 * b.pushed) CwArray.overfull where
  zero := Nat.le_refl _
  grown := by
    intro a a' n b ha hg
    have hle := ha.nelts_le
    -- the inequality between counts, times the size of an element
    have hscale : ∀ {c x y : Nat}, c + x ≤ 2 * n + y →
        c * a.size + x * a.size ≤ 2 * (n * a.size) + y * a.size := by
      intro c x y hxy
      rw [← Nat.add_mul, ← Nat.mul_assoc, ← Nat.add_mul]
      exact Nat.mul_le_mul_right _ hxy
    cases hg with
    | fails => exact Nat.le_refl _
    | fits hroom => simpa [CwArray.overfull] using hscale (c := 0) (by omega)
    | lengthens hfull => simpa [CwArray.overfull] using hscale (c := 0) (by omega)
    | moves new hfull => exact hscale (by simp only; omega)
  made elts size nalloc := by simp [CwArray.overfull]

/-- Four times the bytes pushed, and the first areas, pay for the bytes taken. -/
theorem pays_taken :
    Pays Bill.taken (fun b => b.made + 4 * b.pushed) (fun a => 2 * a.overfull) where
  zero := Nat.le_refl _
  grown := by
    intro a a' n b ha hg
    have hle := ha.nelts_le
    have hscale : ∀ {c x y : Nat}, c + 2 * x ≤ 4 * n + 2 * y →
        c * a.size + 2 * (x * a.size) ≤ 4 * (n * a.size) + 2 * (y * a.size) := by
      intro c x y hxy
      rw [← Nat.mul_assoc, ← Nat.mul_assoc, ← Nat.mul_assoc, ← Nat.add_mul, ← Nat.add_mul]
      exact Nat.mul_le_mul_right _ hxy
    cases hg with
    | fails => simp [Bill.zero]
    | fits hroom => simpa [CwArray.overfull] using hscale (c := 0) (by omega)
    | lengthens hfull => simpa [CwArray.overfull] using hscale (c := n) (by omega)
    | moves new hfull => simpa [CwArray.overfull] using hscale (by omega)
  made elts size nalloc := by simp [CwArray.overfull]

/-- What was taken pays for the areas in use. -/
theorem pays_areas : Pays (fun _ => 0) Bill.taken (fun a => a.area.size) where
  zero := Nat.le_refl _
  grown := by
    intro a a' n b ha hg
    cases hg with
    | fails => simp [Bill.zero]
    | fits hroom => simp [CwArray.area]
    | lengthens hfull => simp [CwArray.area, Nat.add_mul, Nat.add_comm]
    | moves new hfull => simp [CwArray.area]
  made elts size nalloc := by simp [CwArray.area]

/-! ## 4. Whole runs

The world's potential is the sum over its arrays.  A call touches one array at most, and destroying
an array gives its potential up, which only helps.  The rule of `Lib/Amortised.lean` then adds up
the calls. -/

namespace PoolWorld

variable {A : Alignment} {psize : Nat} {w : PoolWorld} {wholes other : List Region}

/-- The state after a call. -/
def next (A : Alignment) (w : PoolWorld) (op : PoolOp) : PoolWorld := (w.step A op).2

/-- A number of the bills of a run, added up. -/
def spent (A : Alignment) (f : Bill → Nat) (w : PoolWorld) (ops : List PoolOp) : Nat :=
  Amortised.total (next A) (fun w op => f (w.bill A op)) w ops

/-- A number of the arrays in use, added up. -/
def inArrays (f : CwArray → Nat) (w : PoolWorld) : Nat :=
  Amortised.sumOver (fun a => f a.arr) w.arrays

theorem allowed_of_admits : ∀ {ops : List PoolOp} {w : PoolWorld}, AdmitsAll A w ops →
    Amortised.Allowed (next A) Admits w ops
  | [], _, _ => trivial
  | _ :: _, _, ⟨hop, hops⟩ => ⟨hop, allowed_of_admits hops⟩

/-- One array among the others. -/
theorem inArrays_split (f : CwArray → Nat) {L T : List LiveArray} {a : LiveArray}
    (h : w.arrays = L ++ a :: T) :
    w.inArrays f = f a.arr + Amortised.sumOver (fun a => f a.arr) (L ++ T) := by
  unfold inArrays
  rw [h, Amortised.sumOver_split]

/-- A call that leaves the arrays as they are and has nothing on its bill. -/
theorem covers_idle {cost charge : Bill → Nat} {potential : CwArray → Nat}
    (hP : Pays cost charge potential) {w' : PoolWorld} (h : w'.arrays = w.arrays) :
    cost .zero + w'.inArrays potential ≤ charge .zero + w.inArrays potential := by
  unfold inArrays
  rw [h]
  exact Nat.add_le_add_right hP.zero _

/-- A call that grows one array. -/
theorem covers_grown {cost charge : Bill → Nat} {potential : CwArray → Nat}
    (hP : Pays cost charge potential) {w' : PoolWorld} {i n : Nat} {a : LiveArray} {arr : CwArray}
    {b : Bill} (ha : w.arrays[i]? = some a) (hok : a.arr.Ok) (hg : a.arr.Grown n arr b)
    (h : w'.arrays = w.arrays.set i { a with arr := arr }) :
    cost b + w'.inArrays potential ≤ charge b + w.inArrays potential := by
  obtain ⟨L, T, harr, -, hset⟩ := split_at ha
  rw [hset] at h
  rw [inArrays_split potential harr, inArrays_split potential h]
  have hpays := hP.grown hok hg
  simp only
  omega

/-- The arrays after a plain allocation. -/
theorem handOut_arrays (w : PoolWorld) (size : Nat) (r : Option Nat × Pool × Heap) :
    (w.handOut size r).2.arrays = w.arrays := by
  obtain ⟨_ | m, p, h⟩ := r <;> rfl

/-- What pays for the ways of one array pays for every call, under the pool's invariant and the
callers' obligations. -/
theorem covers {cost charge : Bill → Nat} {potential : CwArray → Nat}
    (hP : Pays cost charge potential) (A : Alignment) (psize : Nat) (other : List Region) :
    Amortised.Covers (next A) Admits (fun w => ∃ wholes, w.Inv A psize wholes other)
      (fun w op => cost (w.bill A op)) (fun w op => charge (w.bill A op)) (inArrays potential) where
  keeps w op := fun ⟨_, hI⟩ hop => hI.step hop
  covers w op := by
    rintro ⟨wholes, hI⟩ hop
    have hfocus : ∀ {i : Nat} {a : LiveArray}, w.arrays[i]? = some a → a.arr.Ok ∧
        ∃ live, w.pool.Inv A psize w.heap wholes other (a.arr.area :: live) := by
      intro i a ha
      obtain ⟨L, T, harr, -, -⟩ := split_at ha
      exact ⟨hI.arrays a (harr ▸ by simp), _,
        (hI.focus harr).of_live (List.Perm.swap _ _ _) (List.Sublist.refl _)⟩
    cases op with
    | palloc size => exact covers_idle hP (handOut_arrays w size _)
    | pnalloc size => exact covers_idle hP (handOut_arrays w size _)
    | pcalloc size => exact covers_idle hP (handOut_arrays w size _)
    | arrayCreate n size =>
      simp only [next, bill, step]
      rcases hr : Capwap.arrayCreate A w.pool n size w.heap with ⟨_ | ⟨self, arr⟩, p, h⟩
      · exact covers_idle hP rfl
      · obtain ⟨elts, rfl⟩ := arrayCreate_some hr
        simp only [wmul_eq hop.2.2]
        have hmade := hP.made elts size n
        simp only [inArrays, Amortised.sumOver_cons]
        omega
    | arrayPush i =>
      simp only [next, bill, step]
      cases ha : w.arrays[i]? with
      | none => exact covers_idle hP rfl
      | some a =>
        obtain ⟨hok, live, hinv⟩ := hfocus ha
        exact covers_grown hP ha hok (hinv.arrayPush_grown hok).1 rfl
    | arrayPushN i n =>
      simp only [next, bill, step]
      cases ha : w.arrays[i]? with
      | none => exact covers_idle hP rfl
      | some a =>
        obtain ⟨hok, live, hinv⟩ := hfocus ha
        exact covers_grown hP ha hok (hinv.arrayPushN_grown hok (hop.2 a ha)).1 rfl
    | arrayDestroy i =>
      simp only [next, bill, step]
      cases ha : w.arrays[i]? with
      | none => exact covers_idle hP rfl
      | some a =>
        obtain ⟨L, T, harr, herase, -⟩ := split_at ha
        rw [inArrays_split potential harr]
        simp only [inArrays, herase]
        have hzero := hP.zero
        omega

theorem spent_add (A : Alignment) (f g : Bill → Nat) (w : PoolWorld) (ops : List PoolOp) :
    w.spent A (fun b => f b + g b) ops = w.spent A f ops + w.spent A g ops :=
  Amortised.total_add _ _ _ ops w

theorem spent_mul (A : Alignment) (k : Nat) (f : Bill → Nat) (w : PoolWorld) (ops : List PoolOp) :
    w.spent A (fun b => k * f b) ops = k * w.spent A f ops :=
  Amortised.total_mul _ k _ ops w

/-- A pool starts without arrays. -/
theorem create_arrays {size : Nat} {h : Heap} (hc : create size h = some w) : w.arrays = [] := by
  unfold create at hc
  split at hc
  · cases hc
  · cases hc
    rfl

/-- What pays for every call pays for a run. -/
theorem spent_le {cost charge : Bill → Nat} {potential : CwArray → Nat}
    (hP : Pays cost charge potential) (hI : w.Inv A psize wholes other) {ops : List PoolOp}
    (hops : AdmitsAll A w ops) :
    w.spent A cost ops + (w.run A ops).inArrays potential
      ≤ w.spent A charge ops + w.inArrays potential :=
  (covers hP A psize other).total_le ⟨wholes, hI⟩ (allowed_of_admits hops)

end PoolWorld

/-- **Growing arrays costs time and memory in proportion to what is pushed.**  In any run of calls
on a pool the bytes copied from one area to another are at most twice the bytes pushed; the areas in
use are no more than the pool handed out for areas; and this is at most the areas the arrays were
made with and four times the bytes pushed.  Calls that fail are free. -/
theorem arrays_linear {A : Alignment} {size : Nat} {h : Heap} {w₀ : PoolWorld} {ops : List PoolOp}
    (hok : h.Ok) (hge : sizeofPool ≤ size) (hdvd : A.bytes ∣ size)
    (hc : PoolWorld.create size h = some w₀) (hops : w₀.AdmitsAll A ops) :
    w₀.spent A Bill.copied ops ≤ 2 * w₀.spent A Bill.pushed ops ∧
      (w₀.run A ops).inArrays (fun a => a.area.size) ≤ w₀.spent A Bill.taken ops ∧
      w₀.spent A Bill.taken ops ≤ w₀.spent A Bill.made ops + 4 * w₀.spent A Bill.pushed ops := by
  have hI := PoolWorld.create_inv hok hge hdvd hc
  have hnone : w₀.arrays = [] := PoolWorld.create_arrays hc
  have hstart : ∀ f, w₀.inArrays f = 0 := fun f => by
    unfold PoolWorld.inArrays
    rw [hnone]
    rfl
  have hcopied := PoolWorld.spent_le pays_copied hI hops
  have htaken := PoolWorld.spent_le pays_taken hI hops
  have hareas := PoolWorld.spent_le pays_areas hI hops
  rw [hstart, PoolWorld.spent_mul] at hcopied
  rw [hstart, PoolWorld.spent_add, PoolWorld.spent_mul] at htaken
  rw [hstart] at hareas
  refine ⟨?_, ?_, ?_⟩ <;> omega

namespace PoolWorld

/-- An array that moves when it grows, since something is allocated behind it... -/
def movingCalls : List PoolOp :=
  [.arrayCreate 1 8, .arrayPush 0, .palloc 16, .arrayPush 0, .palloc 16]

/-- ...and moves again for three more elements. -/
def growingCalls : List PoolOp := movingCalls ++ [.arrayPushN 0 3, .arrayPush 0]

/-- The heap of the run. -/
def growingHeap : Heap := Heap.fresh fun n => some (4096 * (n + 1))

theorem movingCalls_admitted (A : Alignment) (w : PoolWorld) : w.AdmitsAll A movingCalls := by
  refine ⟨?_, trivial, ?_, trivial, ?_, trivial⟩ <;> simp [Admits, wordSize]

theorem growingCalls_admitted {w₀ : PoolWorld} (hc : create 1024 growingHeap = some w₀) :
    w₀.AdmitsAll .word growingCalls := by
  have hpair : ((w₀.run .word movingCalls).arrays[0]?).map
      (fun a => (a.arr.nalloc, a.arr.size)) = some (2, 8) := by
    cases hc
    decide +kernel
  refine (movingCalls_admitted .word w₀).append ⟨⟨by decide, ?_⟩, trivial, trivial⟩
  intro a ha
  rw [ha] at hpair
  obtain ⟨hn, hs⟩ := Prod.mk.inj (Option.some.inj hpair)
  rw [hn, hs]
  decide

end PoolWorld

open PoolWorld

/-- The statement for this array: 24 bytes are copied and 48 are pushed. -/
theorem arrays_linear_sample :
    ∃ w₀, create 1024 growingHeap = some w₀ ∧
      w₀.spent .word Bill.copied growingCalls = 24 ∧
      w₀.spent .word Bill.pushed growingCalls = 48 ∧
      w₀.spent .word Bill.copied growingCalls ≤ 2 * w₀.spent .word Bill.pushed growingCalls ∧
      (w₀.run .word growingCalls).inArrays (fun a => a.area.size)
        ≤ w₀.spent .word Bill.taken growingCalls ∧
      w₀.spent .word Bill.taken growingCalls
        ≤ w₀.spent .word Bill.made growingCalls + 4 * w₀.spent .word Bill.pushed growingCalls := by
  have hcreate := (rfl : create 1024 growingHeap = some _)
  exact ⟨_, hcreate, by decide +kernel, by decide +kernel,
    arrays_linear (Heap.fresh_ok _) (show sizeofPool ≤ 1024 by decide) (by decide) hcreate
      (growingCalls_admitted hcreate)⟩

end Capwap
