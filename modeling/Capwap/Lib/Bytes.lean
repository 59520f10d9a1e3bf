/-
# Bytes by address

Memory as a function from addresses to bytes: reading a run of bytes (`load`), writing one
(`store`), and reading a run as a table with rows of one length (`rows`), which is how an array of
records lies in memory.

`SameOff r m m'` says that `m'` differs from `m` in the region `r` at most; what lies apart from
`r` is read as before (`SameOff.load`, `SameOff.rows`).
-/
import Capwap.Lib.Arena
import Mathlib.Data.List.GetD

/-- A memory. -/
abbrev Bytes := Nat → UInt8

namespace Bytes

/-- The `n` bytes from `p` on. -/
def load (m : Bytes) (p n : Nat) : List UInt8 := (List.range n).map fun j => m (p + j)

/-- The memory with `data` written from `p` on. -/
def store (m : Bytes) (p : Nat) (data : List UInt8) : Bytes :=
  fun x => if p ≤ x ∧ x < p + data.length then data.getD (x - p) 0 else m x

/-- The `n` rows of `size` bytes from `p` on. -/
def rows (m : Bytes) (p size n : Nat) : List (List UInt8) :=
  (List.range n).map fun k => load m (p + k * size) size

/-- Outside `r`, `m'` is `m`.  What happens inside is left open, so the relation composes: two
changes in `r` are a change in `r`. -/
def SameOff (r : Region) (m m' : Bytes) : Prop := ∀ x, x < r.base ∨ r.stop ≤ x → m' x = m x

variable {m m' m'' : Bytes} {p q size n : Nat} {r s : Region}

/-! ## 1. Reading

A run of bytes is the list of its values, so that reading is a map over the offsets and two runs
are equal when they agree at every offset.  A table is read row by row, and it may also be cut in
two (`rows_add`), as it is when rows are added behind those that are there. -/

@[simp] theorem length_load (m : Bytes) (p n : Nat) : (load m p n).length = n := by simp [load]

@[simp] theorem length_rows (m : Bytes) (p size n : Nat) : (rows m p size n).length = n := by
  simp [rows]

theorem load_congr (h : ∀ j < n, m' (q + j) = m (p + j)) : load m' q n = load m p n := by
  refine List.map_congr_left fun j hj => ?_
  exact h j (List.mem_range.mp hj)

/-- The first row, and the rows behind it. -/
theorem rows_succ (m : Bytes) (p size n : Nat) :
    rows m p size (n + 1) = load m p size :: rows m (p + size) size n := by
  unfold rows
  rw [List.range_succ_eq_map, List.map_cons, List.map_map]
  congr 1
  · rw [Nat.zero_mul, Nat.add_zero]
  · refine List.map_congr_left fun k _ => ?_
    simp only [Function.comp_apply, Nat.succ_eq_add_one]
    rw [Nat.add_mul, Nat.one_mul, Nat.add_comm (k * size), Nat.add_assoc]

/-- Two tables are the same when their bytes are.  The offsets run through the whole table, so one
hypothesis covers all rows. -/
theorem rows_congr (h : ∀ x < n * size, m' (q + x) = m (p + x)) :
    rows m' q size n = rows m p size n := by
  refine List.map_congr_left fun k hk => load_congr fun j hj => ?_
  have hlt : k * size + j < n * size := by
    have hk := List.mem_range.mp hk
    calc k * size + j
        _ < k * size + size := Nat.add_lt_add_left hj _
        _ = (k + 1) * size := by rw [Nat.add_mul, Nat.one_mul]
        _ ≤ n * size := Nat.mul_le_mul_right _ hk
  rw [Nat.add_assoc, Nat.add_assoc]
  exact h _ hlt

/-- A table in two parts. -/
theorem rows_add (m : Bytes) (p size n k : Nat) :
    rows m p size (n + k) = rows m p size n ++ rows m (p + n * size) size k := by
  unfold rows
  rw [List.range_add, List.map_append, List.map_map]
  congr 1
  refine List.map_congr_left fun j _ => ?_
  simp only [Function.comp_apply]
  rw [Nat.add_mul, Nat.add_assoc]

/-- Rows of one length, put behind one another. -/
theorem length_flatten_rows : ∀ {vs : List (List UInt8)}, (∀ v ∈ vs, v.length = size) →
    vs.flatten.length = vs.length * size := by
  intro vs
  induction vs with
  | nil =>
    intro _
    exact (Nat.zero_mul size).symm
  | cons v vs ih =>
    intro h
    have hrec := ih fun u hu => h u (List.mem_cons_of_mem v hu)
    rw [List.flatten_cons, List.length_append, hrec, h v List.mem_cons_self, List.length_cons,
      Nat.add_mul, Nat.one_mul, Nat.add_comm]

/-! ## 2. Writing

`store` is what `memcpy` from a list would do.  What was written is read back (`load_store`), also
as a table when it was written row behind row. -/

theorem store_sameOff (m : Bytes) (p : Nat) (data : List UInt8) :
    SameOff ⟨p, data.length⟩ m (store m p data) := by
  intro x hx
  simp only [Region.stop] at hx
  exact if_neg (by omega)

/-- Inside the run that was written. -/
theorem store_at {data : List UInt8} {j : Nat} (hj : j < data.length) :
    store m p data (p + j) = data.getD j 0 := by
  unfold store
  rw [if_pos ⟨Nat.le_add_right _ _, Nat.add_lt_add_left hj _⟩, Nat.add_sub_cancel_left]

theorem load_store (m : Bytes) (p : Nat) (data : List UInt8) :
    load (store m p data) p data.length = data := by
  refine List.ext_getElem (by simp) fun j hj hj' => ?_
  simp only [load, List.getElem_map, List.getElem_range]
  rw [store_at hj', List.getD_eq_getElem _ _ hj']

/-- A table that was written row behind row.  The induction is on the rows. -/
theorem rows_store (size : Nat) : ∀ (vs : List (List UInt8)) (m : Bytes) (p : Nat),
    (∀ v ∈ vs, v.length = size) → rows (store m p vs.flatten) p size vs.length = vs := by
  intro vs
  induction vs with
  | nil =>
    intro m p _
    rfl
  | cons v vs ih =>
    intro m p h
    obtain rfl := h v List.mem_cons_self
    have hrec := ih (store m p v) (p + v.length) fun u hu => h u (List.mem_cons_of_mem _ hu)
    -- writing both at once is writing one behind the other
    have hboth : store m p (v :: vs).flatten = store (store m p v) (p + v.length) vs.flatten := by
      funext x
      simp only [store, List.flatten_cons, List.length_append]
      by_cases hv : p ≤ x ∧ x < p + v.length
      · rw [if_pos ⟨hv.1, by omega⟩, if_neg (by omega), if_pos hv,
          List.getD_append _ _ _ _ (by omega)]
      · by_cases hvs : p + v.length ≤ x ∧ x < p + v.length + vs.flatten.length
        · rw [if_pos ⟨by omega, by omega⟩, if_pos hvs, List.getD_append_right _ _ _ _ (by omega)]
          congr 1
          omega
        · rw [if_neg (by omega), if_neg hvs, if_neg hv]
    rw [List.length_cons, rows_succ, hboth, hrec]
    congr 1
    calc load (store (store m p v) (p + v.length) vs.flatten) p v.length
        _ = load (store m p v) p v.length := load_congr fun j hj =>
          store_sameOff _ _ _ _ (Or.inl (by simp only; omega))
        _ = v := load_store m p v

/-! ## 3. What a write leaves alone

The frame rule of this library.  An operation that writes in `r` only is summed up by `SameOff r`;
facts about other regions are then carried over by apartness, and the operation is not looked at
again. -/

theorem SameOff.refl (r : Region) (m : Bytes) : SameOff r m m := fun _ _ => rfl

theorem SameOff.trans (h : SameOff r m m') (h' : SameOff r m' m'') : SameOff r m m'' :=
  fun x hx => (h' x hx).trans (h x hx)

/-- A change inside a region is a change inside any larger one. -/
theorem SameOff.mono (h : SameOff r m m') (hr : r.Inside s) : SameOff s m m' := by
  obtain ⟨hbase, hstop⟩ := hr
  exact fun x hx => h x (hx.imp (fun hlt => by omega) fun hle => by omega)

/-- What is apart from the region is read as before. -/
theorem SameOff.load (h : SameOff r m m') {c : Region} (hc : c.Apart r) :
    Bytes.load m' c.base c.size = Bytes.load m c.base c.size := by
  refine load_congr fun j hj => ?_
  unfold Region.Apart Region.stop at hc
  by_cases hempty : r.size = 0
  · -- an empty region has no byte that could differ
    refine h _ ?_
    unfold Region.stop
    omega
  · refine h _ ?_
    unfold Region.stop
    omega

theorem SameOff.rows (h : SameOff r m m') {c : Region} (hc : c.Apart r) (hn : n * size ≤ c.size) :
    Bytes.rows m' c.base size n = Bytes.rows m c.base size n := by
  refine rows_congr fun x hx => h _ ?_
  unfold Region.Apart Region.stop at hc
  unfold Region.stop
  omega

end Bytes
