/-
# Who owns a socket

Every descriptor that `cw_open_listening_sockets` gets from `socket` is either closed in the same
round, whatever `close` answers, or stored in the entry of the round.  `Disposes` is the inversion
of a round: what it leaves in the entry, and what it does to the kernel's ledger (`Kernel.Did`).

Over the array this gives the account of the whole call (`sockets_owned`): what was got is what was
closed and what is stored, no descriptor is stored twice, and the entries that had no round of
their own are as they were.
-/
import Capwap.Cycle.Listen

namespace Capwap

/-! ## 1. The ledger of a round

A round gets at most one descriptor.  What it does with the ledger is said relative to the kernel
at its start: the descriptors that were got, those of them that are open now, and those that were
closed. -/

/-- From `k` to `k'`, these descriptors were got, are now open as well, and were closed; nothing
was closed that was not open. -/
structure Kernel.Did (k k' : Kernel) (got live closed : List Int) : Prop where
  got : k'.got = got ++ k.got
  live : k'.live = live ++ k.live
  closed : k'.closed = closed ++ k.closed
  faults : k'.faults = k.faults

/-- The entry is to be opened. -/
def Listening.Wanted (l : Listening) : Prop := l.ignore = false ∧ l.fd = -1

instance (l : Listening) : Decidable l.Wanted := inferInstanceAs (Decidable (_ ∧ _))

/-- What a round does with the entry and the descriptors: it passes the entry over, gets no socket,
closes the one it got, or stores it in the entry. -/
inductive Disposes (l : Listening) (k : Kernel) : Option Listening → Kernel → Prop
  | passed (h : ¬ l.Wanted) : Disposes l k (some l) k
  | refused {k' : Kernel} (h : l.Wanted) (hfd : k.openFd.1 = -1) (hdid : k.Did k' [] [] []) :
      Disposes l k none k'
  | shut {o : Option Listening} {k' : Kernel} (h : l.Wanted) (hfd : k.openFd.1 ≠ -1)
      (ho : ∀ l', o = some l' → l' = l) (hdid : k.Did k' [k.openFd.1] [] [k.openFd.1]) :
      Disposes l k o k'
  | stored {k' : Kernel} (h : l.Wanted) (hfd : k.openFd.1 ≠ -1)
      (hdid : k.Did k' [k.openFd.1] [k.openFd.1] []) :
      Disposes l k (some { l with fd := k.openFd.1, listen := l.listen || l.stream }) k'

variable {k k' k'' : Kernel} {l : Listening}

theorem Kernel.Did.trans {g v c g' v' c' : List Int} (h : k.Did k' g v c)
    (h' : k'.Did k'' g' v' c') : k.Did k'' (g' ++ g) (v' ++ v) (c' ++ c) where
  got := by rw [h'.got, h.got, List.append_assoc]
  live := by rw [h'.live, h.live, List.append_assoc]
  closed := by rw [h'.closed, h.closed, List.append_assoc]
  faults := h'.faults.trans h.faults

theorem Kernel.Did.refl (k : Kernel) : k.Did k [] [] [] := ⟨rfl, rfl, rfl, rfl⟩

theorem Kernel.Did.ask {g v c : List Int} (h : k.Did k' g v c) : k.Did k'.ask g v c :=
  ⟨h.got, h.live, h.closed, h.faults⟩

theorem Kernel.openFd_did (h : k.openFd.1 ≠ -1) :
    k.Did k.openFd.2 [k.openFd.1] [k.openFd.1] [] := by
  rw [openFd_ok h]
  exact ⟨rfl, rfl, rfl, rfl⟩

/-- The socket just got is closed again, whatever `close` answers. -/
theorem Kernel.Did.shut {fd : Int} (h : k.Did k' [fd] [fd] []) :
    k.Did (k'.closeFd fd).2 [fd] [] [fd] := by
  have hmem : fd ∈ k'.live := by
    rw [h.live]
    exact List.mem_cons_self
  rw [closeFd_live hmem]
  refine ⟨h.got, ?_, ?_, h.faults⟩
  · simp [h.live]
  · simp [h.closed]

/-- The rounds of the loop are these. -/
theorem openListening_disposes (l : Listening) (k : Kernel) :
    Disposes l k (openListening l k).1 (openListening l k).2 := by
  unfold openListening
  by_cases hign : l.ignore = true
  · rw [if_pos hign]
    exact .passed fun h => by simp [h.1] at hign
  rw [if_neg hign]
  by_cases hfd : l.fd ≠ -1
  · rw [if_pos hfd]
    exact .passed fun h => hfd h.2
  rw [if_neg hfd]
  have hwanted : l.Wanted := ⟨by simpa using hign, not_not.mp hfd⟩
  by_cases hs : k.openFd.1 = -1
  · simp only [if_pos hs]
    refine .refused hwanted hs ?_
    rw [Kernel.openFd_failed hs]
    exact (Kernel.Did.refl k).ask
  simp only [if_neg hs]
  -- the socket exists, and each call takes an answer
  have hgot := (Kernel.openFd_did hs).ask
  by_cases hreuse : ¬ k.openFd.2.answer.ok = true
  · rw [if_pos hreuse]
    exact .shut hwanted hs (by simp) hgot.shut
  rw [if_neg hreuse]
  by_cases hnb : ¬ k.openFd.2.ask.answer.ok = true
  · rw [if_pos hnb]
    exact .shut hwanted hs (by simp) hgot.ask.shut
  rw [if_neg hnb]
  by_cases hbind : ¬ k.openFd.2.ask.ask.answer.ok = true
  · rw [if_pos hbind]
    refine .shut hwanted hs ?_ hgot.ask.ask.shut
    intro l' hl'
    split at hl'
    · exact (Option.some.inj hl').symm
    · cases hl'
  rw [if_neg hbind]
  by_cases hstream : ¬ l.stream = true
  · rw [if_pos hstream]
    have hkept : ({ l with fd := k.openFd.1 } : Listening)
        = { l with fd := k.openFd.1, listen := l.listen || l.stream } := by
      simp [show l.stream = false by simpa using hstream]
    rw [hkept]
    exact .stored hwanted hs hgot.ask.ask
  rw [if_neg hstream]
  by_cases hlisten : ¬ k.openFd.2.ask.ask.ask.answer.ok = true
  · rw [if_pos hlisten]
    refine .shut hwanted hs ?_ hgot.ask.ask.ask.shut
    intro l' hl'
    split at hl'
    · exact (Option.some.inj hl').symm
    · cases hl'
  rw [if_neg hlisten]
  have hkept : ({ l with listen := true, fd := k.openFd.1 } : Listening)
      = { l with fd := k.openFd.1, listen := l.listen || l.stream } := by
    simp [show l.stream = true by simpa using hstream]
  rw [hkept]
  exact .stored hwanted hs hgot.ask.ask.ask

/-! ## 2. The whole array

The account of a call is a structure, with a field for each thing it has to answer for: the ledger,
the fate of each socket, what the entries are now, and a second call on them. -/

/-- The descriptor `socket` returned in a round, if the round got to it and it succeeded. -/
def socketOf (x : Listening × Kernel) : Option Int :=
  if x.1.Wanted ∧ x.2.openFd.1 ≠ -1 then some x.2.openFd.1 else none

/-- The descriptors that are stored in entries that had another one before. -/
def storedIn (ls ls' : List Listening) : List Int :=
  (ls.zip ls').filterMap fun x => if x.1.fd = x.2.fd then none else some x.2.fd

/-- What became of the socket `fd` that the round at place `i` got for the entry `l`, in a call on
`ls` and `k` that left `r`: it was closed, or it is stored in that entry and open. -/
inductive Fate (ls : List Listening) (k : Kernel) (r : Bool × List Listening × Kernel) (i : Nat)
    (l : Listening) (q : Kernel) (fd : Int) : Prop
  /-- it was closed in its round, and the entry is as it was -/
  | shut (hclosed : (openListening l q).2.closed = fd :: q.closed) (hentry : r.2.1[i]? = some l)
  /-- it is in its entry and still open, nothing has closed it, and no other entry names it but
  one that did so before, when it was not open -/
  | stored (hclosed : r.2.2.closed.count fd = q.closed.count fd) (hlive : fd ∈ r.2.2.live)
      (hentry : r.2.1[i]? = some { l with fd := fd, listen := l.listen || l.stream })
      (honly : ∀ (j : Nat) (l' : Listening), r.2.1[j]? = some l' → l'.fd = fd →
        j = i ∨ ls[j]? = some l' ∧ fd ∉ k.live)

/-- The account of a call of `cw_open_listening_sockets` on `ls` and `k` that left `r`. -/
structure SocketsOwned (ls : List Listening) (k : Kernel) (r : Bool × List Listening × Kernel) :
    Prop where
  /-- what `socket` returned was closed or is stored, as often as it was returned -/
  ledger : ∃ shut, k.Did r.2.2 ((reached ls k).filterMap socketOf).reverse
      (storedIn ls r.2.1).reverse shut ∧
    ((reached ls k).filterMap socketOf).Perm (shut ++ storedIn ls r.2.1)
  /-- no descriptor is stored twice -/
  nodup : (storedIn ls r.2.1).Nodup
  /-- each socket has one of the two fates -/
  fate : ∀ (i : Nat) (l : Listening) (q : Kernel) (fd : Int), (reached ls k)[i]? = some (l, q) →
    socketOf (l, q) = some fd → Fate ls k r i l q fd
  /-- entries to be ignored, and open ones, are as they were -/
  untouched : ∀ (i : Nat) (l : Listening), ls[i]? = some l → l.ignore = true ∨ l.fd ≠ -1 →
    r.2.1[i]? = some l
  /-- `listen` is set on stream entries, in the round that stores the socket -/
  listens : ∀ (i : Nat) (l l' : Listening), ls[i]? = some l → r.2.1[i]? = some l' →
    l'.listen ≠ l.listen → l.stream = true ∧ l'.listen = true ∧
      ∃ q, (reached ls k)[i]? = some (l, q) ∧ socketOf (l, q) = some l'.fd
  /-- a later call makes sockets for entries only that have none and are not to be ignored -/
  again : ∀ (k₂ : Kernel) (i : Nat) (l : Listening) (q : Kernel),
    (reached r.2.1 k₂)[i]? = some (l, q) → socketOf (l, q) ≠ none →
      r.2.1[i]? = some l ∧ ls[i]? = some l ∧ l.ignore = false ∧ l.fd = -1

/-! ## 3. One round and the rest

The parts of the account are proved by induction on the array: a round has done one thing, by
`openListening_disposes`, and the rest of the array does its own on the kernel that the round
leaves. -/

variable {l' : Listening}

theorem openListeningSockets_none (ls : List Listening) (h : openListening l k = (none, k')) :
    openListeningSockets (l :: ls) k = (false, l :: ls, k') ∧ reached (l :: ls) k = [(l, k)] := by
  simp only [openListeningSockets, reached, h, and_self]

theorem openListeningSockets_some (ls : List Listening) (h : openListening l k = (some l', k')) :
    openListeningSockets (l :: ls) k = ((openListeningSockets ls k').1,
      l' :: (openListeningSockets ls k').2.1, (openListeningSockets ls k').2.2) ∧
    reached (l :: ls) k = (l, k) :: reached ls k' := by
  simp only [openListeningSockets, reached, h, and_self]

theorem storedIn_self (ls : List Listening) : storedIn ls ls = [] := by
  induction ls with
  | nil => rfl
  | cons l ls ih =>
    unfold storedIn at ih ⊢
    rw [List.zip_cons_cons, List.filterMap_cons, if_pos rfl]
    exact ih

theorem storedIn_same {ls ls' : List Listening} (h : l.fd = l'.fd) :
    storedIn (l :: ls) (l' :: ls') = storedIn ls ls' := by
  unfold storedIn
  rw [List.zip_cons_cons, List.filterMap_cons, if_pos h]

theorem storedIn_new {ls ls' : List Listening} (h : l.fd ≠ l'.fd) :
    storedIn (l :: ls) (l' :: ls') = l'.fd :: storedIn ls ls' := by
  unfold storedIn
  rw [List.zip_cons_cons, List.filterMap_cons, if_neg h]

theorem socketOf_some {fd : Int} (h : socketOf (l, k) = some fd) :
    l.Wanted ∧ k.openFd.1 = fd ∧ fd ≠ -1 ∧ fd ∉ k.live := by
  unfold socketOf at h
  split at h
  · rename_i hc
    obtain rfl := Option.some.inj h
    refine ⟨hc.1, rfl, hc.2, ?_⟩
    rw [k.openFd_ready.2 hc.2]
    exact (k.openFd_ready.1.mp hc.2).2
  · cases h

theorem socketOf_eq (hw : l.Wanted) (hfd : k.openFd.1 ≠ -1) :
    socketOf (l, k) = some k.openFd.1 := if_pos ⟨hw, hfd⟩

theorem socketOf_passed (h : ¬ l.Wanted) : socketOf (l, k) = none := if_neg fun hc => h hc.1

theorem socketOf_refused (h : k.openFd.1 = -1) : socketOf (l, k) = none := if_neg fun hc => hc.2 h

/-- No round closes a descriptor that was open before it. -/
theorem Disposes.live {o : Option Listening} (h : Disposes l k o k') {fd : Int}
    (hfd : fd ∈ k.live) : fd ∈ k'.live := by
  cases h with
  | passed _ => exact hfd
  | refused _ _ hdid => simpa [hdid.live] using hfd
  | shut _ _ _ hdid => simpa [hdid.live] using hfd
  | stored _ _ hdid =>
    rw [hdid.live]
    exact List.mem_append_right _ hfd

/-- The sockets of a call are new.  The induction is on the array. -/
theorem sockets_fresh : ∀ (ls : List Listening) (k : Kernel),
    ∀ fd ∈ (reached ls k).filterMap socketOf, fd ∉ k.live := by
  intro ls
  induction ls with
  | nil =>
    intro k fd hfd
    simp [reached] at hfd
  | cons l ls ih =>
    intro k fd hfd
    have hround := openListening_disposes l k
    have hhead : ∀ {fd' : Int}, socketOf (l, k) = some fd' → fd' ∉ k.live :=
      fun h => (socketOf_some h).2.2.2
    cases hl : openListening l k with
    | mk o k' =>
      rw [hl] at hround
      cases o with
      | none =>
        rw [(openListeningSockets_none ls hl).2] at hfd
        obtain ⟨x, hx, hs⟩ := List.mem_filterMap.mp hfd
        obtain rfl := List.mem_singleton.mp hx
        exact hhead hs
      | some l' =>
        rw [(openListeningSockets_some ls hl).2] at hfd
        obtain ⟨x, hx, hs⟩ := List.mem_filterMap.mp hfd
        rcases List.mem_cons.mp hx with rfl | hx
        · exact hhead hs
        · exact fun hmem => ih k' fd (List.mem_filterMap.mpr ⟨x, hx, hs⟩) (hround.live hmem)

/-- The ledger of a call.  The induction is on the array. -/
theorem sockets_ledger : ∀ (ls : List Listening) (k : Kernel), ∃ shut,
    k.Did (openListeningSockets ls k).2.2 ((reached ls k).filterMap socketOf).reverse
      (storedIn ls (openListeningSockets ls k).2.1).reverse shut ∧
    ((reached ls k).filterMap socketOf).Perm
      (shut ++ storedIn ls (openListeningSockets ls k).2.1) := by
  intro ls
  induction ls with
  | nil =>
    intro k
    exact ⟨[], .refl k, .refl _⟩
  | cons l ls ih =>
    intro k
    have hround := openListening_disposes l k
    cases hl : openListening l k with
    | mk o k' =>
      rw [hl] at hround
      cases o with
      | none =>
        obtain ⟨hr, hreached⟩ := openListeningSockets_none ls hl
        rw [hr, hreached, storedIn_self]
        cases hround with
        | refused _ hfd hdid =>
          refine ⟨[], ?_, ?_⟩ <;>
            simp only [List.filterMap_cons, socketOf_refused hfd, List.filterMap_nil]
          · exact hdid
          · exact .refl _
        | shut hw hfd _ hdid =>
          refine ⟨[k.openFd.1], ?_, ?_⟩ <;>
            simp only [List.filterMap_cons, socketOf_eq hw hfd, List.filterMap_nil]
          · exact hdid
          · exact .refl _
      | some l' =>
        obtain ⟨hr, hreached⟩ := openListeningSockets_some ls hl
        obtain ⟨shut, hdid', hperm⟩ := ih k'
        rw [hr, hreached]
        cases hround with
        | passed hw =>
          rw [storedIn_same rfl, List.filterMap_cons, socketOf_passed hw]
          exact ⟨shut, hdid', hperm⟩
        | shut hw hfd ho hdid =>
          obtain rfl := ho l' rfl
          rw [storedIn_same rfl, List.filterMap_cons, socketOf_eq hw hfd]
          refine ⟨shut ++ [k.openFd.1], ?_, ?_⟩
          · simpa using hdid.trans hdid'
          · have hcons := hperm.cons k.openFd.1
            refine hcons.trans ?_
            rw [List.append_assoc, List.singleton_append]
            exact List.perm_middle.symm
        | stored hw hfd hdid =>
          have hne : l.fd ≠ k.openFd.1 := by
            rw [hw.2]
            exact Ne.symm hfd
          rw [storedIn_new hne, List.filterMap_cons, socketOf_eq hw hfd]
          refine ⟨shut, ?_, ?_⟩
          · simpa using hdid.trans hdid'
          · exact (hperm.cons _).trans List.perm_middle.symm

/-- What is stored was not open before the call. -/
theorem storedIn_fresh (ls : List Listening) (k : Kernel) :
    ∀ fd ∈ storedIn ls (openListeningSockets ls k).2.1, fd ∉ k.live := by
  intro fd hfd
  obtain ⟨shut, -, hperm⟩ := sockets_ledger ls k
  exact sockets_fresh ls k fd (hperm.mem_iff.mpr (List.mem_append_right _ hfd))

/-- A descriptor that is open stays so, and the call does not close it: only sockets of its own are
closed. -/
theorem sockets_frame (ls : List Listening) (k : Kernel) {fd : Int} (h : fd ∈ k.live) :
    fd ∈ (openListeningSockets ls k).2.2.live ∧
      (openListeningSockets ls k).2.2.closed.count fd = k.closed.count fd := by
  obtain ⟨shut, hdid, hperm⟩ := sockets_ledger ls k
  have hshut : fd ∉ shut := fun hmem =>
    sockets_fresh ls k fd (hperm.mem_iff.mpr (List.mem_append_left _ hmem)) h
  constructor
  · rw [hdid.live]
    exact List.mem_append_right _ h
  · rw [hdid.closed, List.count_append, List.count_eq_zero_of_not_mem hshut, Nat.zero_add]

/-- No descriptor is stored twice.  The induction is on the array: a descriptor that is stored is
open in the later rounds, so `socket` does not return it. -/
theorem storedIn_nodup : ∀ (ls : List Listening) (k : Kernel),
    (storedIn ls (openListeningSockets ls k).2.1).Nodup := by
  intro ls
  induction ls with
  | nil =>
    intro k
    exact List.nodup_nil
  | cons l ls ih =>
    intro k
    have hround := openListening_disposes l k
    cases hl : openListening l k with
    | mk o k' =>
      rw [hl] at hround
      cases o with
      | none =>
        rw [(openListeningSockets_none ls hl).1, storedIn_self]
        exact List.nodup_nil
      | some l' =>
        rw [(openListeningSockets_some ls hl).1]
        by_cases hsame : l.fd = l'.fd
        · rw [storedIn_same hsame]
          exact ih k'
        · rw [storedIn_new hsame, List.nodup_cons]
          refine ⟨?_, ih k'⟩
          intro hmem
          refine storedIn_fresh ls k' l'.fd hmem ?_
          cases hround with
          | passed _ => exact absurd rfl hsame
          | shut _ _ ho _ => exact absurd (congrArg Listening.fd (ho l' rfl)).symm hsame
          | stored _ _ hdid =>
            rw [hdid.live]
            exact List.mem_cons_self

/-- An entry is as it was, or its round has stored a socket in it. -/
theorem sockets_entry : ∀ (ls : List Listening) (k : Kernel) (i : Nat) (l : Listening),
    ls[i]? = some l → (openListeningSockets ls k).2.1[i]? = some l ∨
      ∃ q fd, (reached ls k)[i]? = some (l, q) ∧ socketOf (l, q) = some fd ∧
        (openListeningSockets ls k).2.1[i]?
          = some { l with fd := fd, listen := l.listen || l.stream } := by
  intro ls
  induction ls with
  | nil =>
    intro k i l h
    simp at h
  | cons l₀ ls ih =>
    intro k i l h
    have hround := openListening_disposes l₀ k
    cases hl : openListening l₀ k with
    | mk o k' =>
      rw [hl] at hround
      cases o with
      | none =>
        rw [(openListeningSockets_none ls hl).1]
        exact Or.inl h
      | some l' =>
        obtain ⟨hr, hreached⟩ := openListeningSockets_some ls hl
        rw [hr, hreached]
        cases i with
        | succ i => exact ih k' i l h
        | zero =>
          obtain rfl := Option.some.inj h
          cases hround with
          | passed _ => exact Or.inl rfl
          | shut _ _ ho _ => exact Or.inl (congrArg some (ho l' rfl))
          | stored hw hfd _ => exact Or.inr ⟨k, _, rfl, socketOf_eq hw hfd, rfl⟩

/-- The call neither drops nor adds an entry. -/
theorem sockets_length : ∀ (ls : List Listening) (k : Kernel),
    (openListeningSockets ls k).2.1.length = ls.length := by
  intro ls
  induction ls with
  | nil =>
    intro k
    rfl
  | cons l ls ih =>
    intro k
    cases hl : openListening l k with
    | mk o k' =>
      cases o with
      | none => rw [(openListeningSockets_none ls hl).1]
      | some l' =>
        rw [(openListeningSockets_some ls hl).1]
        exact congrArg (· + 1) (ih k')

/-- A round that the loop gets to is one of an entry of the array. -/
theorem reached_entry : ∀ (ls : List Listening) (k : Kernel) (i : Nat) (l : Listening) (q : Kernel),
    (reached ls k)[i]? = some (l, q) → ls[i]? = some l := by
  intro ls
  induction ls with
  | nil =>
    intro k i l q h
    simp [reached] at h
  | cons l₀ ls ih =>
    intro k i l q h
    cases i with
    | zero => exact congrArg some (Prod.mk.inj (Option.some.inj h)).1
    | succ i =>
      cases hl : openListening l₀ k with
      | mk o k' =>
        cases o with
        | none =>
          rw [(openListeningSockets_none ls hl).2] at h
          simp at h
        | some l' =>
          rw [(openListeningSockets_some ls hl).2] at h
          exact ih k' i l q h

/-! ## 4. The account of a call -/

/-- The round that stores a socket, seen from the whole call on the entry and the rest. -/
theorem fate_stored (ls : List Listening) (hround : k.Did k' [k.openFd.1] [k.openFd.1] [])
    (hw : l.Wanted) (hfd : k.openFd.1 ≠ -1)
    (hl : openListening l k
      = (some { l with fd := k.openFd.1, listen := l.listen || l.stream }, k')) :
    Fate (l :: ls) k (openListeningSockets (l :: ls) k) 0 l k k.openFd.1 := by
  obtain ⟨hr, -⟩ := openListeningSockets_some ls hl
  have hopen : k.openFd.1 ∈ k'.live := by
    rw [hround.live]
    exact List.mem_cons_self
  obtain ⟨hlive, hcount⟩ := sockets_frame ls k' hopen
  rw [hr]
  refine .stored ?_ hlive rfl ?_
  · rw [hcount, hround.closed, List.nil_append]
  · intro j l'' hj hname
    cases j with
    | zero => exact Or.inl rfl
    | succ j =>
      have hlt := (List.getElem?_eq_some_iff.mp hj).1
      simp only [List.length_cons, sockets_length, Nat.add_lt_add_iff_right] at hlt
      have hentry : ls[j]? = some ls[j] := List.getElem?_eq_getElem hlt
      rcases sockets_entry ls k' j _ hentry with hsame | ⟨q, fd', hreached, hsock, hnew⟩
      · have hj' : (openListeningSockets ls k').2.1[j]? = some l'' := hj
        rw [hsame] at hj'
        obtain rfl := Option.some.inj hj'
        exact Or.inr ⟨hentry, (socketOf_some (socketOf_eq hw hfd)).2.2.2⟩
      · -- a socket of a later round is not one that is open already
        have hj' : (openListeningSockets ls k').2.1[j]? = some l'' := hj
        rw [hnew] at hj'
        obtain rfl := Option.some.inj hj'
        have hfresh := sockets_fresh ls k' fd'
          (List.mem_filterMap.mpr ⟨_, List.mem_of_getElem? hreached, hsock⟩)
        have hsame : fd' = k.openFd.1 := hname
        exact absurd (hsame ▸ hopen) hfresh

/-- Every socket has one of the two fates.  The induction is on the array, and the place of an
entry moves up by one for each round. -/
theorem sockets_fate : ∀ (ls : List Listening) (k : Kernel) (i : Nat) (l : Listening) (q : Kernel)
    (fd : Int), (reached ls k)[i]? = some (l, q) → socketOf (l, q) = some fd →
    Fate ls k (openListeningSockets ls k) i l q fd := by
  intro ls
  induction ls with
  | nil =>
    intro k i l q fd h
    simp [reached] at h
  | cons l₀ ls ih =>
    intro k i l q fd h hs
    have hround := openListening_disposes l₀ k
    cases hl : openListening l₀ k with
    | mk o k' =>
      rw [hl] at hround
      cases i with
      | zero =>
        obtain ⟨rfl, rfl⟩ := Prod.mk.inj (Option.some.inj h)
        obtain ⟨-, rfl, -, -⟩ := socketOf_some hs
        cases hround with
        | passed hw =>
          rw [socketOf_passed hw] at hs
          cases hs
        | refused _ hfd _ =>
          rw [socketOf_refused hfd] at hs
          cases hs
        | shut _ _ ho hdid =>
          refine .shut ?_ ?_
          · rw [hl]
            exact hdid.closed
          · cases o with
            | none =>
              rw [(openListeningSockets_none ls hl).1]
              rfl
            | some l' =>
              rw [(openListeningSockets_some ls hl).1]
              exact congrArg some (ho l' rfl)
        | stored hw hfd hdid => exact fate_stored ls hdid hw hfd hl
      | succ i =>
        cases o with
        | none =>
          rw [(openListeningSockets_none ls hl).2] at h
          simp at h
        | some l' =>
          obtain ⟨hr, hreached⟩ := openListeningSockets_some ls hl
          rw [hreached] at h
          have hnew : fd ∉ k'.live := sockets_fresh ls k' fd
            (List.mem_filterMap.mpr ⟨_, List.mem_of_getElem? h, hs⟩)
          have hnew' : fd ∉ k.live := fun hmem => hnew (hround.live hmem)
          rw [hr]
          cases ih k' i l q fd h hs with
          | shut hclosed hentry => exact .shut hclosed hentry
          | stored hclosed hlive hentry honly =>
            refine .stored hclosed hlive hentry ?_
            intro j l'' hj hname
            cases j with
            | succ j =>
              rcases honly j l'' hj hname with rfl | ⟨hj', -⟩
              · exact Or.inl rfl
              · exact Or.inr ⟨hj', hnew'⟩
            | zero =>
              obtain rfl := Option.some.inj hj
              cases hround with
              | passed _ => exact Or.inr ⟨rfl, hnew'⟩
              | shut _ _ ho _ => exact Or.inr ⟨congrArg some (ho _ rfl).symm, hnew'⟩
              | stored _ _ hdid =>
                refine absurd ?_ hnew
                rw [← hname, hdid.live]
                exact List.mem_cons_self

/-- **Sockets are owned**: for every array and every pattern of answers of the system, each
descriptor that `socket` returned in the call was closed once or is stored in one entry, and the
entries that were not to be opened are as they were. -/
theorem sockets_owned (ls : List Listening) (k : Kernel) :
    SocketsOwned ls k (openListeningSockets ls k) where
  ledger := sockets_ledger ls k
  nodup := storedIn_nodup ls k
  fate := sockets_fate ls k
  untouched i l hi hl := by
    rcases sockets_entry ls k i l hi with hsame | ⟨q, fd, -, hsock, -⟩
    · exact hsame
    · obtain ⟨hw, -⟩ := socketOf_some hsock
      rcases hl with hign | hfd
      · simp [hw.1] at hign
      · exact absurd hw.2 hfd
  listens i l l' hi hi' hne := by
    rcases sockets_entry ls k i l hi with hsame | ⟨q, fd, hreached, hsock, hnew⟩
    · rw [hsame] at hi'
      obtain rfl := Option.some.inj hi'
      exact absurd rfl hne
    · rw [hnew] at hi'
      obtain rfl := Option.some.inj hi'
      have hstream : l.stream = true := by
        by_contra hnot
        exact hne (by simp [hnot])
      exact ⟨hstream, by simp [hstream], q, hreached, hsock⟩
  again k₂ i l q hreached hsock := by
    obtain ⟨fd, hfd⟩ := Option.ne_none_iff_exists'.mp hsock
    obtain ⟨hw, -⟩ := socketOf_some hfd
    have hi' := reached_entry _ _ _ _ _ hreached
    have hlt := (List.getElem?_eq_some_iff.mp hi').1
    rw [sockets_length] at hlt
    have hi : ls[i]? = some ls[i] := List.getElem?_eq_getElem hlt
    rcases sockets_entry ls k i _ hi with hsame | ⟨q', fd', -, hsock', hnew⟩
    · rw [hsame] at hi'
      obtain rfl := Option.some.inj hi'
      exact ⟨hsame, hi, hw.1, hw.2⟩
    · -- an entry in which a socket was stored has a descriptor
      rw [hnew] at hi'
      obtain rfl := Option.some.inj hi'
      exact absurd hw.2 (socketOf_some hsock').2.2.1

end Capwap
