/-
# The pool invariant over every run

The array functions keep `Pool.Inv` (sections 1 and 2), so every call of a client does
(`PoolWorld.Inv.step`), so every run does (`Reach.inv`).  What the invariant says about a
reachable world is spelled out in section 4: the blocks are in order, the regions handed out
are apart from one another and from every header, each lies in one block's payload or is a
large allocation, and what `cw_pcalloc` returns is aligned and zero.
-/
import Capwap.Pool.Spatial

namespace Capwap

/-! ## 1. Moving the head's `last`

The array functions write to `p->d.last` themselves.  In the arena's terms that is `grow` and
`drop` on the head's span, for a region that ends exactly at `last`; these lemmas restate the two
for a pool, and say that the rest of `Pool.Inv` does not depend on `last`. -/

namespace Pool.Inv

variable {A : Alignment} {psize : Nat} {h : Heap} {p : Pool} {wholes other live : List Region}

/-- The head block as a span of the arena. -/
theorem head_span (p : Pool) :
    p.spans = [] ++ p.head.span sizeofPool :: p.rest.map (·.span sizeofPoolData) := rfl

/-- The pool with the head's `last` moved, given that the arena stays sound. -/
theorem of_setLast (hI : p.Inv A psize h wholes other live) {n : Nat} {live' : List Region}
    (hs : Arena.Sound
      ⟨[] ++ (p.head.span sizeofPool).moveTo n :: p.rest.map (·.span sizeofPoolData), wholes,
        p.nodes ++ live'⟩) :
    (p.setLast n).Inv A psize h wholes other live' := by
  refine ⟨hI.heap_ok, hI.owned, hs, hI.psize_ge, hI.psize_dvd, ?_, hI.max_eq, hI.current_lt,
    hI.allocs, hI.nodes_in⟩
  intro s hs'
  have hall := hI.hi_eq
  rw [head_span] at hall
  rcases List.mem_cons.mp hs' with rfl | ht
  · exact hall (p.head.span sizeofPool) List.mem_cons_self
  · exact hall s (List.mem_cons_of_mem _ ht)

/-- A client's region starts above address 0. -/
theorem live_base_pos (hI : p.Inv A psize h wholes other live) {r : Region} (hr : r ∈ live) :
    0 < r.base := by
  rcases hI.sound.placed r (List.mem_append_right _ hr) with ⟨s, hs, hold⟩ | hl
  · have := (hI.span_bounds hs).1
    have := (hI.sound.span_ok s hs).header_pos
    have := hold.lo_le
    omega
  · exact (hI.heap_ok.granted r (hI.chunk_mem (List.mem_append_right _ hl))).1

/-- The clients' first region may be brought in front of the pool's own records, since the order of
regions means nothing. -/
theorem front (p : Pool) (r : Region) (rest : List Region) :
    (p.nodes ++ r :: rest).Perm (r :: (p.nodes ++ rest)) := List.perm_middle

/-- A region that ends at the head's `last` grows in place, by as much as the block has room. -/
theorem grow {e n k : Nat} (hI : p.Inv A psize h wholes other (⟨e, n⟩ :: live)) (hn : 0 < n)
    (htop : e + n = p.head.last) (hk : p.head.last + k ≤ p.head.fin) :
    (p.setLast (p.head.last + k)).Inv A psize h wholes other (⟨e, n + k⟩ :: live) := by
  have hg := hI.sound.grow (head_span p) (r := ⟨e, n⟩) (front p ⟨e, n⟩ live) hn htop (k := k) hk
  exact hI.of_setLast (hg.of_live (front p ⟨e, n + k⟩ live).symm (List.Sublist.refl _))

/-- A region that ends at the head's `last` is given back: `last` goes back to its start. -/
theorem dropTop {e n : Nat} (hI : p.Inv A psize h wholes other (⟨e, n⟩ :: live)) (hn : 0 < n)
    (htop : e + n = p.head.last) : (p.setLast e).Inv A psize h wholes other live :=
  hI.of_setLast
    (hI.sound.drop (head_span p) (r := ⟨e, n⟩) (front p ⟨e, n⟩ live) hn htop)

/-- Forget the clients' first region. -/
theorem forget {r : Region} (hI : p.Inv A psize h wholes other (r :: live)) :
    p.Inv A psize h wholes other live :=
  hI.of_live (List.Perm.refl _) (List.sublist_cons_self r live)

/-- ...or the second one. -/
theorem forget_second {r s : Region} (hI : p.Inv A psize h wholes other (r :: s :: live)) :
    p.Inv A psize h wholes other (r :: live) :=
  hI.of_live (List.Perm.refl _) ((List.sublist_cons_self s live).cons_cons r)

/-- Writing bytes does not matter to the invariant. -/
theorem of_bytes (hI : p.Inv A psize h wholes other live) (bytes : Nat → UInt8) :
    p.Inv A psize { h with bytes := bytes } wholes other live :=
  hI.of_heap (hI.heap_ok.withBytes bytes) hI.owned

end Pool.Inv

/-! ## 2. The array functions

Each is proved to keep the invariant with the array's element area in front of the other regions.
Since the area ends in the user half, no product of the growth formulas wraps (`area_bounds`),
except those in `cw_array_push_n` that involve the caller's count; these are the caller's to
bound. -/

/-- What holds of every array a client made: neither the elements nor the capacity are nothing, and
the elements fit. -/
structure CwArray.Ok (a : CwArray) : Prop where
  size_pos : 1 ≤ a.size
  nalloc_pos : 1 ≤ a.nalloc
  nelts_le : a.nelts ≤ a.nalloc

theorem CwArray.Ok.area_pos {a : CwArray} (ha : a.Ok) : 0 < a.area.size :=
  Nat.mul_pos ha.nalloc_pos ha.size_pos

namespace Pool.Inv

variable {A : Alignment} {psize : Nat} {h : Heap} {p : Pool} {wholes other live : List Region}
variable {a : CwArray}

/-- The numbers of an array's element area, none of which wraps.  All of it follows from the area
lying below `PTRDIFF_MAX`. -/
theorem area_bounds (hI : p.Inv A psize h wholes other (a.area :: live)) (ha : a.Ok) :
    a.elts + a.nalloc * a.size ≤ userTop ∧ a.nalloc ≤ a.nalloc * a.size ∧
      a.size ≤ a.nalloc * a.size ∧ wmul a.size a.nalloc = a.nalloc * a.size ∧
      wadd a.elts (wmul a.size a.nalloc) = a.elts + a.nalloc * a.size ∧
      2 * (a.nalloc * a.size) < wordSize := by
  have htop := hI.live_stop_le (r := a.area) List.mem_cons_self
  have hpos := hI.live_base_pos (r := a.area) List.mem_cons_self
  simp only [CwArray.area, Region.stop] at htop hpos
  have h1 : a.nalloc ≤ a.nalloc * a.size := Nat.le_mul_of_pos_right _ ha.size_pos
  have h2 : a.size ≤ a.nalloc * a.size := Nat.le_mul_of_pos_left _ ha.nalloc_pos
  have h3 : wmul a.size a.nalloc = a.nalloc * a.size := by
    rw [Nat.mul_comm a.nalloc]
    refine wmul_eq ?_
    rw [Nat.mul_comm]
    unfold userTop at htop
    unfold wordSize
    omega
  refine ⟨htop, h1, h2, h3, ?_, ?_⟩
  · rw [h3]
    refine wadd_eq ?_
    unfold userTop at htop
    unfold wordSize
    omega
  · unfold userTop at htop
    unfold wordSize
    omega

/-- Adding `k` elements of room in place: the area and the head's `last` grow by the same bytes. -/
theorem push_in_place (hI : p.Inv A psize h wholes other (a.area :: live)) (ha : a.Ok) {k : Nat}
    (htop : wadd a.elts (wmul a.size a.nalloc) = p.head.last)
    (hk : p.head.last + k * a.size < wordSize)
    (hfit : wadd p.head.last (k * a.size) ≤ p.head.fin) :
    (p.setLast (wadd p.head.last (k * a.size))).Inv A psize h wholes other
      (⟨a.elts, (a.nalloc + k) * a.size⟩ :: live) := by
  obtain ⟨-, -, -, -, helts, -⟩ := hI.area_bounds ha
  rw [wadd_eq hk] at hfit ⊢
  rw [Nat.add_mul]
  exact grow hI ha.area_pos (helts ▸ htop) hfit

/-- The head block ends in the user half, so what is added to its `last` does not wrap around. -/
theorem head_last_le (hI : p.Inv A psize h wholes other live) : p.head.last ≤ userTop := by
  have hs : p.head.span sizeofPool ∈ p.spans := List.mem_cons_self
  have h1 := (hI.sound.span_ok _ hs).le_hi
  have h2 := (hI.span_bounds hs).2.2.2
  simp only [Block.span] at h1 h2
  omega

/-- `cw_array_push` keeps the invariant, whether or not it finds room.  When the array moves, the
old area is forgotten: it stays inside its block, and nobody holds it. -/
theorem arrayPush (hI : p.Inv A psize h wholes other (a.area :: live)) (ha : a.Ok) :
    ∃ wholes', (Capwap.arrayPush A a p h).2.2.1.Inv A psize (Capwap.arrayPush A a p h).2.2.2
        wholes' other ((Capwap.arrayPush A a p h).2.1.area :: live) ∧
      (Capwap.arrayPush A a p h).2.1.Ok := by
  obtain ⟨htop, hn, hs, hmul, helts, hdouble⟩ := hI.area_bounds ha
  have hnelts := ha.nelts_le
  have hnalloc : wadd a.nelts 1 = a.nelts + 1 ∧ wadd a.nalloc 1 = a.nalloc + 1 := by
    constructor <;> refine wadd_eq ?_ <;> unfold wordSize at * <;> omega
  unfold Capwap.arrayPush
  by_cases hfull : a.nelts = a.nalloc
  · rw [if_pos hfull]
    simp only
    by_cases hin : wadd a.elts (wmul a.size a.nalloc) = p.head.last ∧
        wadd p.head.last a.size ≤ p.head.fin
    · rw [if_pos hin]
      -- the area ends at `last` and there is room behind it
      have hlast := hI.head_last_le
      have hstep := hI.push_in_place ha (k := 1) hin.1
        (by rw [Nat.one_mul]; unfold userTop at *; unfold wordSize at *; omega)
        (by rw [Nat.one_mul]; exact hin.2)
      rw [Nat.one_mul] at hstep
      simp only [hnalloc.1, hnalloc.2]
      exact ⟨wholes, hstep, ha.size_pos, by simp, by simp only; omega⟩
    · rw [if_neg hin]
      have hsize : wmul 2 (wmul a.size a.nalloc) = a.nalloc * 2 * a.size := by
        rw [hmul, wmul_eq hdouble, Nat.mul_comm a.nalloc 2, Nat.mul_assoc]
      have hwn : wmul a.nalloc 2 = a.nalloc * 2 :=
        wmul_eq (by unfold wordSize at *; omega)
      cases hr : palloc A p (wmul 2 (wmul a.size a.nalloc)) h with
      | mk ans rest =>
        obtain ⟨p', h'⟩ := rest
        unfold palloc at hr
        cases ans with
        | none =>
          obtain ⟨-, hinv, -, -⟩ := hI.entry_none hr
          exact ⟨wholes, hinv, ha⟩
        | some new =>
          obtain ⟨wholes', hinv, -, -⟩ := hI.entry hr
          rw [hsize] at hinv
          simp only [hwn, hnalloc.1]
          have hal := ha.nalloc_pos
          exact ⟨wholes', hinv.forget_second.of_bytes _, ha.size_pos, by simp only; omega,
            by simp only; omega⟩
  · rw [if_neg hfull]
    simp only [hnalloc.1]
    exact ⟨wholes, hI, ha.size_pos, ha.nalloc_pos, by simp only; omega⟩

/-- `cw_array_push_n` keeps the invariant, whether or not it finds room. -/
theorem arrayPushN (hI : p.Inv A psize h wholes other (a.area :: live)) (ha : a.Ok) {n : Nat}
    (hprod : 2 * (n ⊔ a.nalloc) * a.size < wordSize) :
    ∃ wholes', (Capwap.arrayPushN A a n p h).2.2.1.Inv A psize
        (Capwap.arrayPushN A a n p h).2.2.2 wholes' other
        ((Capwap.arrayPushN A a n p h).2.1.area :: live) ∧
      (Capwap.arrayPushN A a n p h).2.1.Ok := by
  obtain ⟨htop, hn, hs, hmul, helts, hdouble⟩ := hI.area_bounds ha
  have hnelts := ha.nelts_le
  have hcount : 2 * (n ⊔ a.nalloc) ≤ 2 * (n ⊔ a.nalloc) * a.size :=
    Nat.le_mul_of_pos_right _ ha.size_pos
  have hnsize : 2 * (n * a.size) ≤ 2 * (n ⊔ a.nalloc) * a.size := by
    rw [Nat.mul_assoc]
    exact Nat.mul_le_mul_left 2 (Nat.mul_le_mul_right _ (le_max_left _ _))
  have hle := le_max_left n a.nalloc
  have hle' := le_max_right n a.nalloc
  have hw : wadd a.nelts n = a.nelts + n ∧ wadd a.nalloc n = a.nalloc + n ∧
      wmul n a.size = n * a.size := by
    refine ⟨wadd_eq (by omega), wadd_eq (by omega), wmul_eq (by omega)⟩
  unfold Capwap.arrayPushN
  simp only [hw.1, hw.2.1, hw.2.2]
  by_cases hfull : a.nelts + n > a.nalloc
  · rw [if_pos hfull]
    by_cases hin : wadd a.elts (wmul a.size a.nalloc) = p.head.last ∧
        wadd p.head.last (n * a.size) ≤ p.head.fin
    · rw [if_pos hin]
      have hlast := hI.head_last_le
      have hstep := hI.push_in_place ha (k := n) hin.1
        (by unfold userTop at *; unfold wordSize at *; omega) hin.2
      exact ⟨wholes, hstep, ha.size_pos, by simp only; omega, by simp only; omega⟩
    · rw [if_neg hin]
      have hmax : (if n ≥ a.nalloc then n else a.nalloc) = n ⊔ a.nalloc := by
        rw [max_def]
        split <;> split <;> omega
      have hnew : wmul 2 (n ⊔ a.nalloc) = 2 * (n ⊔ a.nalloc) := wmul_eq (by omega)
      rw [hmax, hnew, wmul_eq hprod]
      cases hr : palloc A p (2 * (n ⊔ a.nalloc) * a.size) h with
      | mk ans rest =>
        obtain ⟨p', h'⟩ := rest
        unfold palloc at hr
        cases ans with
        | none =>
          obtain ⟨-, hinv, -, -⟩ := hI.entry_none hr
          exact ⟨wholes, hinv, ha⟩
        | some new =>
          obtain ⟨wholes', hinv, -, -⟩ := hI.entry hr
          have hal := ha.nalloc_pos
          exact ⟨wholes', hinv.forget_second.of_bytes _, ha.size_pos, by simp only; omega,
            by simp only; omega⟩
  · rw [if_neg hfull]
    exact ⟨wholes, hI, ha.size_pos, ha.nalloc_pos, by simp only; omega⟩

/-- `cw_array_destroy` gives back what ends at the head's `last`: the element area, then the
control block.  Where something lies behind either of them it is forgotten instead. -/
theorem arrayDestroy {self : Nat}
    (hI : p.Inv A psize h wholes other (⟨self, sizeofArray⟩ :: a.area :: live)) (ha : a.Ok) :
    (Capwap.arrayDestroy self a p).Inv A psize h wholes other live := by
  have hswap : p.Inv A psize h wholes other (a.area :: ⟨self, sizeofArray⟩ :: live) :=
    hI.of_live (List.Perm.swap _ _ _) (List.Sublist.refl _)
  obtain ⟨htop, -, -, hmul, helts, -⟩ := hswap.area_bounds ha
  -- after the first test only the control block is left, in whichever pool
  have hctrl : ∀ {q : Pool}, q.Inv A psize h wholes other (⟨self, sizeofArray⟩ :: live) →
      (if wadd self sizeofArray = q.head.last then q.setLast self else q).Inv A psize h wholes
        other live := by
    intro q hq
    have hstop := hq.live_stop_le (r := ⟨self, sizeofArray⟩) List.mem_cons_self
    have hw : wadd self sizeofArray = self + sizeofArray := by
      refine wadd_eq ?_
      simp only [Region.stop] at hstop
      unfold userTop at hstop
      unfold wordSize
      omega
    rw [hw]
    split
    · rename_i hlast
      exact hq.dropTop (by unfold sizeofArray; omega) hlast
    · exact hq.forget
  unfold Capwap.arrayDestroy
  by_cases hlast : wadd a.elts (wmul a.size a.nalloc) = p.head.last
  · rw [if_pos hlast]
    have hback : wsub p.head.last (wmul a.size a.nalloc) = a.elts := by
      rw [← hlast, helts, hmul, wsub_eq (by omega)
        (by unfold userTop at htop; unfold wordSize; omega)]
      omega
    rw [hback]
    exact hctrl (dropTop hswap ha.area_pos (helts ▸ hlast))
  · rw [if_neg hlast]
    exact hctrl hswap.forget

/-- `cw_create_pool` makes a pool without clients: one block, whose header is the pool's own
record. -/
theorem of_create {size : Nat} (hok : h.Ok) (hge : sizeofPool ≤ size) (hdvd : A.bytes ∣ size)
    {h' : Heap} (hc : createPool size h = (some p, h')) :
    p.Inv A size h' [] h.live [] ∧ h'.bytes = h.bytes := by
  simp only [createPool, cwMemalign] at hc
  cases hq : h.request size with
  | mk ans hh =>
    rw [hq] at hc
    cases ans with
    | none => exact absurd (congrArg Prod.fst hc) (by simp)
    | some base =>
      have hpos : 0 < size := by unfold sizeofPool at hge; omega
      have hok' := hok.request hpos hq
      obtain ⟨⟨h0, h16, htop, hap⟩, rfl⟩ := Heap.request_some hq
      have hword : base + size < wordSize := by
        unfold userTop at htop
        unfold wordSize
        omega
      simp only [wadd_eq hword, wadd_eq (show base + sizeofPool < wordSize by omega),
        wsub_eq hge (by omega), Prod.mk.injEq, Option.some.injEq] at hc
      obtain ⟨rfl, rfl⟩ := hc
      refine ⟨⟨hok', ?_, ⟨?_, ?_, ?_, ?_⟩, hge, hdvd, ?_, ?_, ?_, rfl, by simp [Pool.nodes]⟩, rfl⟩
      · simp [Pool.spans, Pool.blocks, spansOf, Block.span, Span.whole]
      · intro s hs
        obtain rfl : s = _ := List.mem_singleton.mp hs
        constructor <;> simp only [Block.span] <;> unfold sizeofPool at * <;> omega
      · simp [Arena.chunks, Pool.arena, Pool.spans, Pool.blocks, spansOf]
      · simp [Pool.arena, Pool.nodes]
      · intro r hr
        simp [Pool.arena, Pool.nodes] at hr
      · intro s hs
        obtain rfl : s = _ := List.mem_singleton.mp hs
        rfl
      · simp only
        rw [Nat.min_def]
        split <;> split <;> omega
      · simp [Pool.blocks]

end Pool.Inv

/-! ## 3. The clients' calls

The world holds many arrays and a call works on one.  `focus` puts that array's two regions in
front, the lemma of section 2 is applied, and `unfocus` puts the array back in its place; all the
other regions are just reordered on the way, which the invariant does not notice. -/

/-- The invariant of a pool with its clients: that of the pool, with the regions the clients hold,
and each array is in order. -/
structure PoolWorld.Inv (A : Alignment) (psize : Nat) (w : PoolWorld)
    (wholes other : List Region) : Prop where
  pool : w.pool.Inv A psize w.heap wholes other w.held
  arrays : ∀ a ∈ w.arrays, a.arr.Ok

/-- Taking one element out of a list: what stands before and after it. -/
theorem split_at {α : Type} {l : List α} {i : Nat} {a : α} (h : l[i]? = some a) :
    ∃ L T, l = L ++ a :: T ∧ l.eraseIdx i = L ++ T ∧ ∀ b, l.set i b = L ++ b :: T := by
  obtain ⟨hi, rfl⟩ := List.getElem?_eq_some_iff.mp h
  refine ⟨l.take i, l.drop (i + 1), ?_, List.eraseIdx_eq_take_drop_succ .., fun b => ?_⟩
  · rw [List.getElem_cons_drop, List.take_append_drop]
  · rw [List.set_eq_take_append_cons_drop, if_pos hi]

namespace PoolWorld

variable {A : Alignment} {psize : Nat} {w : PoolWorld} {wholes other : List Region}

/-- The regions held, those of one array first. -/
theorem held_perm {L T : List LiveArray} {a : LiveArray} (h : w.arrays = L ++ a :: T) :
    w.held.Perm (a.ctrl :: a.arr.area :: held { w with arrays := L ++ T }) := by
  simp only [held, h, List.flatMap_append, List.flatMap_cons]
  have h1 : (w.plain ++ (L.flatMap (fun a => [a.ctrl, a.arr.area]) ++
      ([a.ctrl, a.arr.area] ++ T.flatMap fun a => [a.ctrl, a.arr.area]))).Perm
      ([a.ctrl, a.arr.area] ++ (w.plain ++ (L.flatMap (fun a => [a.ctrl, a.arr.area]) ++
        T.flatMap fun a => [a.ctrl, a.arr.area]))) := by
    rw [← List.append_assoc w.plain, ← List.append_assoc w.plain]
    exact List.perm_append_comm_assoc _ _ _
  simpa using h1

/-- The invariant with one array's regions in front: its element area and its control block. -/
theorem Inv.focus (hI : w.Inv A psize wholes other) {L T : List LiveArray} {a : LiveArray}
    (h : w.arrays = L ++ a :: T) :
    w.pool.Inv A psize w.heap wholes other
      (a.ctrl :: a.arr.area :: held { w with arrays := L ++ T }) :=
  hI.pool.of_live (held_perm h) (List.Sublist.refl _)

/-- ...and back, with the array changed. -/
theorem Inv.unfocus {L T : List LiveArray} {self : Nat} {arr : CwArray} {p : Pool} {h : Heap}
    (hp : p.Inv A psize h wholes other
      (arr.area :: LiveArray.ctrl ⟨self, arr⟩ :: held { w with arrays := L ++ T }))
    (harr : arr.Ok) (hothers : ∀ b ∈ L ++ T, b.arr.Ok) :
    Inv A psize { w with pool := p, heap := h, arrays := L ++ ⟨self, arr⟩ :: T } wholes other where
  pool := by
    refine hp.of_live ?_ (List.Sublist.refl _)
    exact (List.Perm.swap _ _ _).trans
      (held_perm (w := { w with pool := p, heap := h, arrays := L ++ ⟨self, arr⟩ :: T }) rfl).symm
  arrays b hb := by
    rw [List.mem_append, List.mem_cons] at hb
    rcases hb with hb | rfl | hb
    · exact hothers b (List.mem_append_left _ hb)
    · exact harr
    · exact hothers b (List.mem_append_right _ hb)

/-- A plain allocation keeps the invariant when the pool function does. -/
theorem Inv.handOut (hI : w.Inv A psize wholes other) {size : Nat} {r : Option Nat × Pool × Heap}
    (hsome : ∀ m p h, r = (some m, p, h) →
      ∃ wholes', p.Inv A psize h wholes' other (⟨m, size⟩ :: w.held))
    (hnone : ∀ p h, r = (none, p, h) → p.Inv A psize h wholes other w.held) :
    ∃ wholes', (w.handOut size r).2.Inv A psize wholes' other := by
  obtain ⟨ans, p, h⟩ := r
  cases ans with
  | none => exact ⟨wholes, hnone p h rfl, hI.arrays⟩
  | some m =>
    obtain ⟨wholes', hinv⟩ := hsome m p h rfl
    exact ⟨wholes', hinv, hI.arrays⟩

/-- `cw_array_create` keeps the invariant: it hands out two regions, or the first of them and
nothing more, which is forgotten. -/
theorem Inv.arrayCreate (hI : w.Inv A psize wholes other) {n size : Nat} (hn : 1 ≤ n)
    (hs : 1 ≤ size) (hprod : n * size < wordSize) :
    ∃ wholes', (w.step A (.arrayCreate n size)).2.Inv A psize wholes' other := by
  simp only [step, Capwap.arrayCreate, arrayInit, palloc, wmul_eq hprod]
  cases hr : (if sizeofArray ≤ w.pool.max then pallocSmall A w.pool sizeofArray true w.heap
      else pallocLarge A w.pool sizeofArray w.heap) with
  | mk ans rest =>
    obtain ⟨p₁, h₁⟩ := rest
    cases ans with
    | none =>
      obtain ⟨-, hinv, -, -⟩ := hI.pool.entry_none hr
      exact ⟨wholes, hinv, hI.arrays⟩
    | some self =>
      obtain ⟨wholes₁, hinv₁, -, -⟩ := hI.pool.entry hr
      simp only
      cases hr₂ : (if n * size ≤ p₁.max then pallocSmall A p₁ (n * size) true h₁
          else pallocLarge A p₁ (n * size) h₁) with
      | mk ans₂ rest₂ =>
        obtain ⟨p₂, h₂⟩ := rest₂
        cases ans₂ with
        | none =>
          obtain ⟨-, hinv, -, -⟩ := hinv₁.entry_none hr₂
          exact ⟨wholes₁, hinv.forget, hI.arrays⟩
        | some elts =>
          obtain ⟨wholes₂, hinv₂, -, -⟩ := hinv₁.entry hr₂
          exact ⟨wholes₂, Inv.unfocus (L := []) (T := w.arrays) hinv₂
            ⟨hs, hn, Nat.zero_le _⟩ hI.arrays⟩

/-- Every call within the callers' obligations keeps the invariant, whether it succeeds or returns
`NULL`.  The list `wholes` of the large allocations may have grown. -/
theorem Inv.step (hI : w.Inv A psize wholes other) {op : PoolOp} (hop : w.Admits op) :
    ∃ wholes', (w.step A op).2.Inv A psize wholes' other := by
  cases op with
  | palloc size =>
    exact hI.handOut (fun m p h hr => (hI.pool.entry hr).imp fun _ hw => hw.1)
      (fun p h hr => (hI.pool.entry_none hr).2.1)
  | pnalloc size =>
    exact hI.handOut (fun m p h hr => (hI.pool.entry hr).imp fun _ hw => hw.1)
      (fun p h hr => (hI.pool.entry_none hr).2.1)
  | pcalloc size =>
    cases hr : Capwap.palloc A w.pool size w.heap with
    | mk ans rest =>
      obtain ⟨p', h'⟩ := rest
      refine hI.handOut (fun m p h hc => ?_) (fun p h hc => ?_)
      · simp only [Capwap.pcalloc, hr] at hc
        cases ans with
        | none => exact absurd (congrArg Prod.fst hc) (by simp)
        | some m' =>
          simp only [Prod.mk.injEq, Option.some.injEq] at hc
          obtain ⟨rfl, rfl, rfl⟩ := hc
          obtain ⟨wholes', hinv, -, -⟩ := hI.pool.entry hr
          exact ⟨wholes', hinv.of_bytes _⟩
      · simp only [Capwap.pcalloc, hr] at hc
        cases ans with
        | some m' => exact absurd (congrArg Prod.fst hc) (by simp)
        | none =>
          simp only [Prod.mk.injEq, true_and] at hc
          obtain ⟨rfl, rfl⟩ := hc
          exact (hI.pool.entry_none hr).2.1
  | arrayCreate n size => exact hI.arrayCreate hop.1 hop.2.1 hop.2.2
  | arrayPush i =>
    simp only [PoolWorld.step]
    cases ha : w.arrays[i]? with
    | none => exact ⟨wholes, hI⟩
    | some a =>
      obtain ⟨L, T, harr, -, hset⟩ := split_at ha
      have hok : a.arr.Ok := hI.arrays a (harr ▸ by simp)
      have hfocus := (hI.focus harr).of_live (List.Perm.swap _ _ _) (List.Sublist.refl _)
      obtain ⟨wholes', hinv, hok'⟩ := hfocus.arrayPush hok
      simp only [hset]
      exact ⟨wholes', Inv.unfocus hinv hok' fun b hb => hI.arrays b (by
        rw [harr]; rw [List.mem_append] at hb ⊢; rw [List.mem_cons]; tauto)⟩
  | arrayPushN i n =>
    simp only [PoolWorld.step]
    cases ha : w.arrays[i]? with
    | none => exact ⟨wholes, hI⟩
    | some a =>
      obtain ⟨L, T, harr, -, hset⟩ := split_at ha
      have hok : a.arr.Ok := hI.arrays a (harr ▸ by simp)
      have hfocus := (hI.focus harr).of_live (List.Perm.swap _ _ _) (List.Sublist.refl _)
      obtain ⟨wholes', hinv, hok'⟩ := hfocus.arrayPushN hok (hop.2 a ha)
      simp only [hset]
      exact ⟨wholes', Inv.unfocus hinv hok' fun b hb => hI.arrays b (by
        rw [harr]; rw [List.mem_append] at hb ⊢; rw [List.mem_cons]; tauto)⟩
  | arrayDestroy i =>
    simp only [PoolWorld.step]
    cases ha : w.arrays[i]? with
    | none => exact ⟨wholes, hI⟩
    | some a =>
      obtain ⟨L, T, harr, herase, -⟩ := split_at ha
      have hok : a.arr.Ok := hI.arrays a (harr ▸ by simp)
      simp only [herase]
      exact ⟨wholes, (hI.focus harr).arrayDestroy hok, fun b hb => hI.arrays b (by
        rw [harr]; simp only [List.mem_append] at hb ⊢; rw [List.mem_cons]; tauto)⟩

/-- The invariant holds at every reachable state.  The induction is on the calls, with `Inv.step`
for each. -/
theorem Reach.inv {w₀ w : PoolWorld} (hr : Reach A w₀ w) (h₀ : w₀.Inv A psize wholes other) :
    ∃ wholes', w.Inv A psize wholes' other := by
  induction hr with
  | refl => exact ⟨wholes, h₀⟩
  | tail _ hop ih =>
    obtain ⟨wholes', hinv⟩ := ih
    exact hinv.step hop

/-- `cw_create_pool` starts a run. -/
theorem create_inv {size : Nat} {h : Heap} (hok : h.Ok) (hge : sizeofPool ≤ size)
    (hdvd : A.bytes ∣ size) (hc : create size h = some w) : w.Inv A size [] h.live := by
  unfold create at hc
  cases hp : createPool size h with
  | mk ans h' =>
    rw [hp] at hc
    cases ans with
    | none => simp at hc
    | some pool =>
      simp only [Option.some.injEq] at hc
      subst hc
      exact ⟨(Pool.Inv.of_create hok hge hdvd hp).1, by simp⟩

/-! ## 4. The spatial statement

`Pool.Inv` is stated for proofs: it speaks of spans, and of lists up to order.  `Spatial` says the
same in the terms of the code, block by block and region by region, and is what a client of the
pool may use without knowing how it was proved. -/

/-- What clients may rely on at a reachable state: where the regions are, and that they are apart
from one another and from the headers. -/
structure Spatial (w : PoolWorld) : Prop where
  /-- in the head block, header, `last` and `end` stand in this order -/
  head_ordered : w.pool.head.base + sizeofPool ≤ w.pool.head.last ∧
    w.pool.head.last ≤ w.pool.head.fin
  /-- and in every later block -/
  rest_ordered : ∀ b ∈ w.pool.rest, b.base + sizeofPoolData ≤ b.last ∧ b.last ≤ b.fin
  /-- no two regions handed out share a byte -/
  apart : w.regions.Pairwise Region.Apart
  /-- each lies in one block's payload, or is a large allocation as a whole -/
  placed : ∀ r ∈ w.regions,
    (w.pool.head.base + sizeofPool ≤ r.base ∧ r.stop ≤ w.pool.head.fin) ∨
    (∃ b ∈ w.pool.rest, b.base + sizeofPoolData ≤ r.base ∧ r.stop ≤ b.fin) ∨
    (r ∈ w.heap.live ∧ ∃ l ∈ w.pool.large, l.alloc = some r.base)
  /-- none touches the `cw_pool_t` of the head -/
  off_head : ∀ r ∈ w.regions, r.Apart ⟨w.pool.head.base, sizeofPool⟩
  /-- or the `cw_pool_data_t` of a later block -/
  off_rest : ∀ r ∈ w.regions, ∀ b ∈ w.pool.rest, r.Apart ⟨b.base, sizeofPoolData⟩

/-- What `cw_pcalloc` promises: an aligned region, among the regions handed out, whose bytes
are zero, with every other byte left alone. -/
def ZeroFilled (A : Alignment) (w : PoolWorld) : Prop :=
  ∀ size m, size < wordSize → (w.step A (.pcalloc size)).1 = some m →
    A.bytes ∣ m ∧ ⟨m, size⟩ ∈ (w.step A (.pcalloc size)).2.regions ∧
      ∀ x, (w.step A (.pcalloc size)).2.heap.bytes x
        = if m ≤ x ∧ x < m + size then 0 else w.heap.bytes x

theorem Inv.spatial (hI : w.Inv A psize wholes other) : w.Spatial := by
  have hs := hI.pool.sound
  have hhead : w.pool.head.span sizeofPool ∈ w.pool.spans := List.mem_cons_self
  have hrest : ∀ b ∈ w.pool.rest, b.span sizeofPoolData ∈ w.pool.spans := fun b hb =>
    List.mem_cons_of_mem _ (List.mem_map_of_mem hb)
  have hheader : ∀ (b : Block) (n : Nat), (b.span n).header = ⟨b.base, n⟩ := fun b n => by
    simp [Span.header, Block.span]
  refine ⟨?_, ?_, hs.live_apart, ?_, ?_, ?_⟩
  · exact ⟨(hs.span_ok _ hhead).lo_le, (hs.span_ok _ hhead).le_hi⟩
  · exact fun b hb => ⟨(hs.span_ok _ (hrest b hb)).lo_le, (hs.span_ok _ (hrest b hb)).le_hi⟩
  · intro r hr
    rcases hs.placed r hr with ⟨s, hsp, hold⟩ | hl
    · rcases List.mem_cons.mp hsp with rfl | ht
      · exact Or.inl ⟨hold.lo_le, hold.le_hi⟩
      · obtain ⟨b, hb, rfl⟩ := List.mem_map.mp ht
        exact Or.inr (Or.inl ⟨b, hb, hold.lo_le, hold.le_hi⟩)
    · refine Or.inr (Or.inr ⟨hI.pool.chunk_mem (List.mem_append_right _ hl), ?_⟩)
      have hmem : some r.base ∈ wholes.map fun r => some r.base :=
        List.mem_map.mpr ⟨r, hl, rfl⟩
      rw [← hI.pool.allocs] at hmem
      exact List.mem_map.mp hmem
  · intro r hr
    have := hs.apart_header hhead hr
    rwa [hheader] at this
  · intro r hr b hb
    have := hs.apart_header (hrest b hb) hr
    rwa [hheader] at this

theorem Inv.zeroFilled (hI : w.Inv A psize wholes other) : w.ZeroFilled A := by
  intro size m _ hm
  cases hr : Capwap.palloc A w.pool size w.heap with
  | mk ans rest =>
    obtain ⟨p', h'⟩ := rest
    simp only [PoolWorld.step, Capwap.pcalloc, hr] at hm ⊢
    cases ans with
    | none => simp [PoolWorld.handOut] at hm
    | some m' =>
      obtain rfl : m' = m := by simpa [PoolWorld.handOut] using hm
      obtain ⟨-, -, hal, hbytes⟩ := hI.pool.entry hr
      refine ⟨hal rfl, ?_, fun x => ?_⟩
      · simp [PoolWorld.handOut, regions, held]
      · simp [PoolWorld.handOut, Heap.memzero, hbytes]

/-- **No region a pool hands out ever overlaps another one or a header.**  For every pool made by
`cw_create_pool` and every sequence of calls within the callers' obligations, at every reachable
state, whatever the heap answers.  The size of the pool has to leave room for its own record and
keep the blocks aligned. -/
theorem reach_spatial {size : Nat} {h : Heap} {w₀ w : PoolWorld} (hok : h.Ok)
    (hge : sizeofPool ≤ size) (hdvd : A.bytes ∣ size) (hc : create size h = some w₀)
    (hr : Reach A w₀ w) : w.Spatial ∧ w.ZeroFilled A := by
  obtain ⟨wholes, hinv⟩ := hr.inv (create_inv hok hge hdvd hc)
  exact ⟨hinv.spatial, hinv.zeroFilled⟩

/-- The statement at a pool of 1024 bytes, with a large allocation and an array that grew. -/
theorem reach_spatial_sample :
    ∃ w₀, create 1024 (Heap.fresh fun n => some (4096 * (n + 1))) = some w₀ ∧
      (w₀.run .word sampleCalls).regions.length = 5 ∧
      (w₀.run .word sampleCalls).Spatial ∧ (w₀.run .word sampleCalls).ZeroFilled .word :=
  ⟨_, rfl, by decide +kernel,
    reach_spatial (h := Heap.fresh fun n => some (4096 * (n + 1)))
      (Heap.fresh_ok _) (show sizeofPool ≤ 1024 by decide) (by decide) rfl
      ((Reach.refl _).run (sampleCalls_admitted _ _))⟩

end PoolWorld

end Capwap
