/-
# What `cw_open_listening_sockets` leaves open

A round of the loop takes one entry of `cycle->listening` through `socket`, `setsockopt`, `ioctl`,
`bind` and `listen`.  `Settles` says how a round can go on: the entry is passed over, its socket is
opened, or its address is in use, in which case the socket is closed and the entry stays as it was.
Any other failure is `CW_ERROR`.

So `CW_OK` means that every entry is open that is not to be ignored, but for those whose address
was in use (`listening_open`); one such entry is left without a socket (`addressInUse_notOpen`).
-/
import Capwap.Cycle.Init

namespace Capwap

/-! ## 1. One round

A round makes its calls in a row, so the answer to each is known by its number from the start of
the round: `socket` has the first, `setsockopt` the second, and so on.  In these terms a round ends
in one of four ways: the entry is passed over, its socket is opened, its address is in use, or the
round fails. -/

/-- The answer to the `n`-th call from here on. -/
def Kernel.answerAt (k : Kernel) (n : Nat) : Answer := k.answers (k.calls + n)

/-- A round with these answers gets a socket and sets it up: `socket`, `setsockopt` and `ioctl`
succeed. -/
structure Kernel.Ready (k : Kernel) : Prop where
  socket : 0 ≤ k.answer.fd ∧ k.answer.fd ∉ k.live
  reuse : (k.answerAt 1).ok = true
  nonblocking : (k.answerAt 2).ok = true

/-- The round binds the socket. -/
structure Kernel.Binds (k : Kernel) : Prop extends k.Ready where
  bind : (k.answerAt 3).ok = true

/-- The round finds the address in use, at `bind` or, for a stream socket, at `listen`. -/
inductive InUse (l : Listening) (k : Kernel) : Prop
  | bind (h : k.Ready) (hbind : (k.answerAt 3).ok = false) (huse : (k.answerAt 3).inUse = true)
  | listen (h : k.Binds) (hstream : l.stream = true) (hlisten : (k.answerAt 4).ok = false)
      (huse : (k.answerAt 4).inUse = true)

/-- The round opens a socket: a stream socket listens as well. -/
structure Opens (l : Listening) (k : Kernel) : Prop extends k.Binds where
  listen : l.stream = true → (k.answerAt 4).ok = true

/-- Some call of the round fails, and not because the address is in use. -/
structure Fails (l : Listening) (k : Kernel) : Prop where
  used : l.ignore = false ∧ l.fd = -1
  closed : ¬ Opens l k
  free : ¬ InUse l k

/-- How a round goes on: what becomes of the entry.  It is passed over as it is, or gets its
socket, or stays without one. -/
inductive Settles (l : Listening) (k : Kernel) : Listening → Prop
  | ignored (h : l.ignore = true) : Settles l k l
  | already (h : l.fd ≠ -1) : Settles l k l
  | opened (hopen : l.ignore = false ∧ l.fd = -1) (h : Opens l k) :
      Settles l k { l with fd := k.answer.fd, listen := l.listen || l.stream }
  | inUse (hopen : l.ignore = false ∧ l.fd = -1) (h : InUse l k) : Settles l k l

variable {l l' : Listening} {k k' : Kernel}

theorem Kernel.answerAt_ask (k : Kernel) (n : Nat) : k.ask.answerAt n = k.answerAt (n + 1) := by
  simp only [answerAt, ask, Nat.add_right_comm, Nat.add_assoc]

theorem Kernel.answerAt_openFd (k : Kernel) (n : Nat) :
    k.openFd.2.answerAt n = k.answerAt (n + 1) := by
  rw [← answerAt_ask]
  unfold openFd
  split_ifs <;> rfl

/-- A socket that was got has the descriptor of the answer. -/
theorem Kernel.openFd_ready (k : Kernel) :
    (k.openFd.1 ≠ -1 ↔ 0 ≤ k.answer.fd ∧ k.answer.fd ∉ k.live) ∧
      (k.openFd.1 ≠ -1 → k.openFd.1 = k.answer.fd) := by
  unfold openFd
  split_ifs with h
  · refine ⟨⟨fun _ => h, fun _ => ?_⟩, fun _ => rfl⟩
    simp only
    omega
  · exact ⟨⟨fun hne => absurd rfl hne, fun hfd => absurd hfd h⟩, fun hne => absurd rfl hne⟩

/-- A round, by the answers of the system: the source's nested tests as a table of its calls. -/
theorem openListening_answers (l : Listening) (k : Kernel) : (openListening l k).1 =
    if l.ignore then some l
    else if l.fd ≠ -1 then some l
    else if ¬ (0 ≤ k.answer.fd ∧ k.answer.fd ∉ k.live) then none
    else if ¬ (k.answerAt 1).ok then none
    else if ¬ (k.answerAt 2).ok then none
    else if ¬ (k.answerAt 3).ok then (if (k.answerAt 3).inUse then some l else none)
    else if ¬ l.stream then some { l with fd := k.answer.fd }
    else if ¬ (k.answerAt 4).ok then (if (k.answerAt 4).inUse then some l else none)
    else some { l with listen := true, fd := k.answer.fd } := by
  obtain ⟨hready, hfd⟩ := k.openFd_ready
  have h₁ : k.openFd.2.answer = k.answerAt 1 := k.answerAt_openFd 0
  have h₂ : k.openFd.2.ask.answer = k.answerAt 2 := by
    rw [← k.answerAt_openFd, ← Kernel.answerAt_ask, Kernel.answerAt, Kernel.answer, Nat.add_zero]
  have h₃ : k.openFd.2.ask.ask.answer = k.answerAt 3 := by
    rw [← k.answerAt_openFd, ← Kernel.answerAt_ask, ← Kernel.answerAt_ask, Kernel.answerAt,
      Kernel.answer, Nat.add_zero]
  have h₄ : k.openFd.2.ask.ask.ask.answer = k.answerAt 4 := by
    rw [← k.answerAt_openFd, ← Kernel.answerAt_ask, ← Kernel.answerAt_ask, ← Kernel.answerAt_ask,
      Kernel.answerAt, Kernel.answer, Nat.add_zero]
  unfold openListening
  simp only [h₁, h₂, h₃, h₄, apply_ite Prod.fst]
  by_cases hs : k.openFd.1 = -1
  · have hnot : ¬ (0 ≤ k.answer.fd ∧ k.answer.fd ∉ k.live) := fun h => hready.mpr h hs
    rw [if_pos hs, if_pos hnot]
  · rw [if_neg hs, if_neg (not_not.mpr (hready.mp hs)), hfd hs]

/-- A round goes on just when it settles the entry. -/
theorem openListening_iff : (openListening l k).1 = some l' ↔ Settles l k l' := by
  rw [openListening_answers]
  constructor
  · intro h
    split_ifs at h with hign hfd hsock hreuse hnb hbind hstream hlisten huse huse
    · obtain rfl := Option.some.inj h
      exact .ignored hign
    · obtain rfl := Option.some.inj h
      exact .already hfd
    all_goals
      have hopen : l.ignore = false ∧ l.fd = -1 := ⟨by simpa using hign, not_not.mp hfd⟩
      have hready : k.Ready := ⟨hsock, hreuse, hnb⟩
      obtain rfl := Option.some.inj h
    · have hset : (l.listen || l.stream) = true := by simp [hstream]
      have hopened := Settles.opened hopen ⟨⟨hready, hbind⟩, fun _ => hlisten⟩
      rwa [hset] at hopened
    · exact .inUse hopen (.listen ⟨hready, hbind⟩ hstream (by simpa using hlisten) huse)
    · have hset : (l.listen || l.stream) = l.listen := by simp [hstream]
      have hopened := Settles.opened hopen ⟨⟨hready, hbind⟩, fun h => absurd h hstream⟩
      rwa [hset] at hopened
    · exact .inUse hopen (.bind hready (by simpa using hbind) huse)
  · intro h
    cases h with
    | ignored h => rw [if_pos h]
    | already h => simp [h]
    | opened hopen h =>
      have hlisten := h.listen
      cases hs : l.stream with
      | false => simp [hopen.1, hopen.2, h.socket, h.reuse, h.nonblocking, h.bind]
      | true => simp [hopen.1, hopen.2, h.socket, h.reuse, h.nonblocking, h.bind, hlisten hs]
    | inUse hopen h =>
      cases h with
      | bind h hbind huse =>
        simp [hopen.1, hopen.2, h.socket, h.reuse, h.nonblocking, hbind, huse]
      | listen h hstream hlisten huse =>
        simp [hopen.1, hopen.2, h.socket, h.reuse, h.nonblocking, h.bind, hstream, hlisten, huse]

/-! ## 2. The whole array -/

/-- The entries the loop gets to, each with the kernel at the start of its round: those up to the
first round that fails, and that one. -/
def reached : List Listening → Kernel → List (Listening × Kernel)
  | [], _ => []
  | l :: ls, k => (l, k) ::
    match openListening l k with
    | (none, _) => []
    | (some _, k') => reached ls k'

/-- A round stops just when it fails. -/
theorem openListening_none_iff : (openListening l k).1 = none ↔ Fails l k := by
  constructor
  · intro h
    have hnot : ∀ l', ¬ Settles l k l' := by
      intro l' hl
      rw [openListening_iff.mpr hl] at h
      cases h
    have hused : l.ignore = false ∧ l.fd = -1 := by
      refine ⟨?_, ?_⟩
      · by_contra hign
        exact hnot l (.ignored (by simpa using hign))
      · by_contra hfd
        exact hnot l (.already hfd)
    exact ⟨hused, fun h => hnot _ (.opened hused h), fun h => hnot _ (.inUse hused h)⟩
  · intro h
    cases hl : (openListening l k).1 with
    | none => rfl
    | some l' =>
      cases openListening_iff.mp hl with
      | ignored hign => exact absurd hign (by simp [h.used.1])
      | already hfd => exact absurd h.used.2 hfd
      | opened _ hopens => exact absurd hopens h.closed
      | inUse _ huse => exact absurd huse h.free

/-- With `CW_OK` every round has settled its entry.  The induction is on the array. -/
theorem openListeningSockets_settles : ∀ (ls : List Listening) (k : Kernel),
    (openListeningSockets ls k).1 = true → (reached ls k).map Prod.fst = ls ∧
      List.Forall₂ (fun x l' => Settles x.1 x.2 l') (reached ls k)
        (openListeningSockets ls k).2.1 := by
  intro ls
  induction ls with
  | nil =>
    intro k _
    exact ⟨rfl, .nil⟩
  | cons l ls ih =>
    intro k h
    unfold openListeningSockets at h ⊢
    unfold reached
    cases hl : openListening l k with
    | mk o k' =>
      rw [hl] at h
      cases o with
      | none => cases h
      | some l' =>
        obtain ⟨hfst, hall⟩ := ih k' h
        refine ⟨congrArg (l :: ·) hfst, .cons ?_ hall⟩
        exact openListening_iff.mp (by rw [hl])

/-- It is `CW_ERROR` just when some round fails that the loop gets to.  The induction is on the
array. -/
theorem openListeningSockets_error_iff : ∀ (ls : List Listening) (k : Kernel),
    (openListeningSockets ls k).1 = false ↔ ∃ x ∈ reached ls k, Fails x.1 x.2 := by
  intro ls
  induction ls with
  | nil =>
    intro k
    simp [openListeningSockets, reached]
  | cons l ls ih =>
    intro k
    have hround := openListening_none_iff (l := l) (k := k)
    unfold openListeningSockets reached
    cases hl : openListening l k with
    | mk o k' =>
      rw [hl] at hround
      cases o with
      | none => simpa using hround.mp rfl
      | some l' =>
        have hnot : ¬ Fails l k := fun h => by cases hround.mpr h
        simp only [ih k', List.mem_cons, exists_eq_or_imp, hnot, false_or]

/-- **What `cw_open_listening_sockets` leaves.**  With `CW_OK`, an entry that is not to be ignored
is open, as before or bound in this call, or its address was in use and it has no socket still; a
stream entry that was opened listens.  It is `CW_ERROR` just when a call fails for another reason
than an address in use. -/
theorem listening_open (ls : List Listening) (k : Kernel) :
    ((openListeningSockets ls k).1 = true →
      ∀ (i : Nat) (l' : Listening), (openListeningSockets ls k).2.1[i]? = some l' →
      ∃ l q, ls[i]? = some l ∧ (reached ls k)[i]? = some (l, q) ∧
        (l'.ignore = false →
          (l'.fd ≠ -1 ∧ (l' = l ∨ q.Binds ∧ l'.fd = q.answer.fd)) ∨
            (l' = l ∧ l'.fd = -1 ∧ InUse l q)) ∧
        (l.fd = -1 → l'.fd ≠ -1 → l'.stream = true → l'.listen = true)) ∧
    ((openListeningSockets ls k).1 = false ↔ ∃ x ∈ reached ls k, Fails x.1 x.2) := by
  refine ⟨fun h i l' hl' => ?_, openListeningSockets_error_iff ls k⟩
  obtain ⟨hfst, hall⟩ := openListeningSockets_settles ls k h
  obtain ⟨hi, rfl⟩ := List.getElem?_eq_some_iff.mp hl'
  have hi' : i < (reached ls k).length := hall.length_eq ▸ hi
  have hsettles := hall.get hi' hi
  simp only [List.get_eq_getElem] at hsettles
  have hget : (reached ls k)[i]? = some (reached ls k)[i] := List.getElem?_eq_getElem hi'
  generalize (openListeningSockets ls k).2.1[i] = l' at hsettles
  generalize (reached ls k)[i] = x at hsettles hget
  obtain ⟨l, q⟩ := x
  have hls : ls[i]? = some l := by rw [← hfst, List.getElem?_map, hget, Option.map_some]
  refine ⟨l, q, hls, hget, ?_, ?_⟩
  · intro hused
    cases hsettles with
    | ignored hign => rw [hign] at hused; cases hused
    | already hfd => exact Or.inl ⟨hfd, Or.inl rfl⟩
    | opened _ hopens =>
      have hsock : 0 ≤ q.answer.fd := hopens.socket.1
      exact Or.inl ⟨show q.answer.fd ≠ -1 by omega, Or.inr ⟨hopens.toBinds, rfl⟩⟩
    | inUse hopen huse => exact Or.inr ⟨rfl, hopen.2, huse⟩
  · intro hclosed hopened hstream
    cases hsettles with
    | ignored _ => exact absurd hclosed hopened
    | already _ => exact absurd hclosed hopened
    | opened _ _ =>
      simp only at hstream ⊢
      rw [hstream, Bool.or_true]
    | inUse _ _ => exact absurd hclosed hopened

/-- One entry, whose address is in use: `CW_OK`, and no socket. -/
theorem addressInUse_notOpen : ¬ ∀ (ls : List Listening) (k : Kernel),
    (openListeningSockets ls k).1 = true →
      ∀ l' ∈ (openListeningSockets ls k).2.1, l'.ignore = false → l'.fd ≠ -1 := by
  intro h
  have hbad := h [⟨-1, false, true, false⟩]
    { live := [], got := [], closed := [], faults := [], calls := 0
      answers := fun n => ⟨3, n ≠ 3, n = 3, 0, none⟩ }
  revert hbad
  decide

end Capwap
