/-
# Address regions and bump arenas

A general account of bump allocation, over plain numbers.  A REGION is a run of addresses; a
SPAN is a chunk obtained from somewhere else, of which a header is reserved, a prefix of the
rest is used and the remainder is free; an ARENA is a list of spans together with large chunks
that are handed out whole.

`Arena.Sound` is the spatial invariant: the chunks do not overlap, the live regions do not
overlap, and every live region is either a large chunk or lies in the payload of a span, below
the span's `last` when it has any byte at all.  The last clause is stated for non-empty regions
only, because an empty region may be left behind when `last` is moved back.

The five moves an allocator can make are proved to keep the invariant: `carve` (take fresh
bytes above `last`), `addSpan`, `addLarge`, `grow` (extend the region that ends at `last`) and
`drop` (give the region that ends at `last` back).  The last two rest on `owns_top`: a
non-empty live region that ends exactly at a span's `last` must lie in that very span, because
the header of the span separates its payload from every other chunk.
-/
import Mathlib.Order.CompletePartialOrder
import Mathlib.Order.Interval.Set.Disjoint
import Mathlib.Data.List.Perm.Basic
import Mathlib.Data.List.Pairwise

/-! ## 1. Regions

Addresses are plain numbers here, so a region may reach as far as it likes; whoever uses the
library says where the address space ends.  Regions of size 0 are allowed and matter: an allocator
asked for nothing still returns an address, and such a region overlaps nothing, wherever it is. -/

/-- A run of `size` addresses from `base` on. -/
structure Region where
  base : Nat
  size : Nat
deriving DecidableEq, Repr

namespace Region

/-- The first address behind the region. -/
def stop (r : Region) : Nat := r.base + r.size

/-- The addresses of the region, as a set. -/
def cells (r : Region) : Set Nat := Set.Ico r.base r.stop

/-- Two regions share no address.  An empty region is apart from every region, so apartness does
not say that the base addresses differ: two empty regions may be the same. -/
def Apart (a b : Region) : Prop :=
  a.size = 0 ∨ b.size = 0 ∨ a.stop ≤ b.base ∨ b.stop ≤ a.base

instance (a b : Region) : Decidable (a.Apart b) :=
  inferInstanceAs (Decidable (_ ∨ _))

/-- `a.Inside b`: the interval of `a` lies in the interval of `b`.  It is about the two ends, so an
empty region outside `b` is not inside it although it has no cell there. -/
def Inside (a b : Region) : Prop := b.base ≤ a.base ∧ a.stop ≤ b.stop

instance (a b : Region) : Decidable (a.Inside b) :=
  inferInstanceAs (Decidable (_ ∧ _))

theorem Apart.symm {a b : Region} (h : a.Apart b) : b.Apart a := by
  unfold Apart at *
  omega

instance : Std.Symm Apart := ⟨fun _ _ h => h.symm⟩

/-- `Apart` is disjointness of the two address sets. -/
theorem apart_iff_disjoint {a b : Region} : a.Apart b ↔ Disjoint a.cells b.cells := by
  unfold cells Apart stop
  rw [Set.Ico_disjoint_Ico]
  omega

theorem Inside.cells_subset {a b : Region} (h : a.Inside b) : a.cells ⊆ b.cells :=
  Set.Ico_subset_Ico h.1 h.2

/-- Parts of regions that are apart are apart: for the address sets this is so of any disjoint sets,
and the empty regions need no case of their own there. -/
theorem Apart.mono {a b a' b' : Region} (h : a.Apart b) (ha : a'.Inside a) (hb : b'.Inside b) :
    a'.Apart b' := by
  rw [apart_iff_disjoint] at h ⊢
  exact h.mono ha.cells_subset hb.cells_subset

end Region

/-- Apartness of a whole list does not depend on its order, which is what lets an invariant speak
of the live regions as a list and still be used with any one of them in front. -/
theorem List.Perm.pairwise_apart {l l' : List Region} (h : l.Perm l') :
    l.Pairwise Region.Apart ↔ l'.Pairwise Region.Apart :=
  h.pairwise_iff fun hab => hab.symm

/-! ## 2. Spans and arenas

A span is what an allocator keeps of a chunk it carves from: where the chunk begins (`base`), where
its payload begins (`lo`), how much is used (`last`) and where it ends (`hi`).  The header
`[base, lo)` is never handed out, and it is never empty: this is what tells two neighbouring chunks
apart in `owns_top`. -/

/-- A chunk `[base, hi)` whose header is `[base, lo)` and whose used payload is `[lo, last)`. -/
structure Span where
  base : Nat
  lo : Nat
  last : Nat
  hi : Nat
deriving DecidableEq, Repr

namespace Span

/-- The header is not empty, and `last` lies between the payload's two ends. -/
structure Ok (s : Span) : Prop where
  header_pos : s.base < s.lo
  lo_le : s.lo ≤ s.last
  le_hi : s.last ≤ s.hi

/-- The whole chunk. -/
def whole (s : Span) : Region := ⟨s.base, s.hi - s.base⟩

/-- The reserved part of the chunk. -/
def header (s : Span) : Region := ⟨s.base, s.lo - s.base⟩

/-- The region lies in the payload, and in its used part unless it is empty.  An empty region may
lie behind `last`, since `last` can be moved back below one that was handed out there. -/
structure Holds (s : Span) (r : Region) : Prop where
  lo_le : s.lo ≤ r.base
  le_hi : r.stop ≤ s.hi
  below : r.size = 0 ∨ r.stop ≤ s.last

theorem Holds.inside {s : Span} {r : Region} (h : s.Holds r) (hs : s.Ok) :
    r.Inside s.whole := by
  obtain ⟨h1, h2, -⟩ := h
  obtain ⟨h3, h4, h5⟩ := hs
  unfold Region.Inside whole Region.stop at *
  simp only
  omega

theorem Holds.below_of_le {s : Span} {r : Region} (h : s.Holds r) {n : Nat} (hn : s.last ≤ n) :
    r.size = 0 ∨ r.stop ≤ n :=
  h.below.imp id fun hb => hb.trans hn

theorem header_inside {s : Span} (hs : s.Ok) : s.header.Inside s.whole := by
  obtain ⟨h3, h4, h5⟩ := hs
  unfold Region.Inside header whole Region.stop
  simp only
  omega

/-- `last` moved to `n`. -/
def moveTo (s : Span) (n : Nat) : Span := { s with last := n }

@[simp] theorem whole_moveTo (s : Span) (n : Nat) : (s.moveTo n).whole = s.whole := rfl
@[simp] theorem base_moveTo (s : Span) (n : Nat) : (s.moveTo n).base = s.base := rfl
@[simp] theorem lo_moveTo (s : Span) (n : Nat) : (s.moveTo n).lo = s.lo := rfl
@[simp] theorem hi_moveTo (s : Span) (n : Nat) : (s.moveTo n).hi = s.hi := rfl
@[simp] theorem last_moveTo (s : Span) (n : Nat) : (s.moveTo n).last = n := rfl

end Span

/-- Spans, chunks handed out whole, and the regions that are live. -/
structure Arena where
  spans : List Span
  large : List Region
  live : List Region

namespace Arena

/-- Every chunk of the arena. -/
def chunks (a : Arena) : List Region := a.spans.map Span.whole ++ a.large

/-- A live region is a large chunk, or a span holds it. -/
def Placed (a : Arena) (r : Region) : Prop := (∃ s ∈ a.spans, s.Holds r) ∨ r ∈ a.large

/-- The spatial invariant.  It has the sizes of the spans (`span_ok`), the chunks apart from one
another, the live regions apart from one another, and each live region placed: no clause says which
regions were handed out before and forgotten. -/
structure Sound (a : Arena) : Prop where
  span_ok : ∀ s ∈ a.spans, s.Ok
  chunks_apart : a.chunks.Pairwise Region.Apart
  live_apart : a.live.Pairwise Region.Apart
  placed : ∀ r ∈ a.live, a.Placed r

/-- The order of the live regions does not matter, and forgetting one costs nothing: every clause
is about the live regions one by one or in pairs. -/
theorem Sound.of_live {a : Arena} (h : a.Sound) {live live' : List Region}
    (hp : a.live.Perm live) (hs : live'.Sublist live) : Sound { a with live := live' } where
  span_ok := h.span_ok
  chunks_apart := h.chunks_apart
  live_apart := (hp.pairwise_apart.mp h.live_apart).sublist hs
  placed r hr := h.placed r (hp.mem_iff.mpr (hs.subset hr))

/-! ## 3. What the invariant says about one span

An allocator works on one span at a time.  These lemmas split the list of spans around it,
`a.spans = l ++ s :: t`, and say how everything else in the arena lies to it: the other chunks are
apart from it, and a live region is either held by it or has nothing to do with it. -/

/-- Chunks at different places of the list do not overlap. -/
theorem Sound.whole_apart {a : Arena} (h : a.Sound) {l t : List Span} {s s' : Span}
    (hs : a.spans = l ++ s :: t) (hs' : s' ∈ l ∨ s' ∈ t) : s.whole.Apart s'.whole := by
  have hpw := h.chunks_apart
  rw [chunks, hs, List.map_append, List.map_cons, List.pairwise_append,
    List.pairwise_append, List.pairwise_cons] at hpw
  obtain ⟨⟨-, ⟨hst, -⟩, hls⟩, -, -⟩ := hpw
  rcases hs' with hl | ht
  · exact (hls _ (List.mem_map_of_mem hl) _ List.mem_cons_self).symm
  · exact hst _ (List.mem_map_of_mem ht)

/-- A span does not overlap a chunk handed out whole. -/
theorem Sound.whole_apart_large {a : Arena} (h : a.Sound) {s : Span} {r : Region}
    (hs : s ∈ a.spans) (hr : r ∈ a.large) : s.whole.Apart r := by
  have hpw := h.chunks_apart
  rw [chunks, List.pairwise_append] at hpw
  exact hpw.2.2 _ (List.mem_map_of_mem hs) _ hr

/-- A live region that a given span does not hold shares nothing with that span. -/
theorem Sound.holds_or_apart {a : Arena} (h : a.Sound) {l t : List Span} {s : Span}
    (hs : a.spans = l ++ s :: t) {r : Region} (hr : r ∈ a.live) :
    s.Holds r ∨ r.Apart s.whole := by
  have hmem : s ∈ a.spans := hs ▸ List.mem_append_right l List.mem_cons_self
  rcases h.placed r hr with ⟨s', hs', hold⟩ | hl
  · rw [hs, List.mem_append, List.mem_cons] at hs'
    rcases hs' with hl | rfl | ht
    · have hok : s'.Ok := h.span_ok s' (hs ▸ List.mem_append_left _ hl)
      exact Or.inr ((h.whole_apart hs (Or.inl hl)).symm.mono (hold.inside hok)
        ⟨Nat.le_refl _, Nat.le_refl _⟩)
    · exact Or.inl hold
    · have hok : s'.Ok :=
        h.span_ok s' (hs ▸ List.mem_append_right _ (List.mem_cons_of_mem _ ht))
      exact Or.inr ((h.whole_apart hs (Or.inr ht)).symm.mono (hold.inside hok)
        ⟨Nat.le_refl _, Nat.le_refl _⟩)
  · exact Or.inr (h.whole_apart_large hmem hl).symm

/-- No live region touches a header, so what an allocator keeps in its headers is never overwritten
by a client that stays in its own region. -/
theorem Sound.apart_header {a : Arena} (h : a.Sound) {s : Span} (hs : s ∈ a.spans)
    {r : Region} (hr : r ∈ a.live) : r.Apart s.header := by
  obtain ⟨l, t, hlt⟩ := List.append_of_mem hs
  have hok : s.Ok := h.span_ok s hs
  rcases h.holds_or_apart hlt hr with hold | hap
  · have h1 := hold.lo_le
    have h2 := hok.header_pos
    unfold Region.Apart Span.header Region.stop
    simp only
    omega
  · exact hap.mono ⟨Nat.le_refl _, Nat.le_refl _⟩ (Span.header_inside hok)

/-- The region that ends at a span's `last` lies in that span.  Its final byte is the byte
before `last`, which belongs to the span's chunk even when the payload is empty, because the
header is not. -/
theorem Sound.owns_top {a : Arena} (h : a.Sound) {l t : List Span} {s : Span}
    (hs : a.spans = l ++ s :: t) {r : Region} (hr : r ∈ a.live) (hpos : 0 < r.size)
    (htop : r.stop = s.last) : s.Holds r := by
  have hok : s.Ok := h.span_ok s (hs ▸ List.mem_append_right l List.mem_cons_self)
  rcases h.holds_or_apart hs hr with hold | hap
  · exact hold
  · exfalso
    obtain ⟨h1, h2, h3⟩ := hok
    unfold Region.Apart Span.whole Region.stop at *
    simp only at hap
    omega

/-! ## 4. Replacing one span

All five moves change one span at most and add or remove one live region at most.  The two lemmas
of this section are those two halves: `move` is about the span and takes the new list of live
regions as it is, `cons_live` is about the region. -/

/-- Moving one span's `last` keeps the chunks, and keeps every live region placed that does
not depend on the bytes given back. -/
theorem Sound.move {a : Arena} (h : a.Sound) {l t : List Span} {s : Span}
    (hs : a.spans = l ++ s :: t) {n : Nat} (hlo : s.lo ≤ n) (hhi : n ≤ s.hi)
    {live : List Region} (hsub : ∀ r ∈ live, r ∈ a.live)
    (hbelow : ∀ r ∈ live, s.Holds r → r.size = 0 ∨ r.stop ≤ n)
    (hap : live.Pairwise Region.Apart) :
    Sound { a with spans := l ++ s.moveTo n :: t, live := live } where
  span_ok s' hs' := by
    rw [List.mem_append, List.mem_cons] at hs'
    rcases hs' with hl | rfl | ht
    · exact h.span_ok s' (hs ▸ List.mem_append_left _ hl)
    · have hok := h.span_ok s (hs ▸ List.mem_append_right l List.mem_cons_self)
      exact ⟨hok.header_pos, hlo, hhi⟩
    · exact h.span_ok s' (hs ▸ List.mem_append_right _ (List.mem_cons_of_mem _ ht))
  chunks_apart := by
    have hc := h.chunks_apart
    simp only [chunks, hs, List.map_append, List.map_cons, Span.whole_moveTo] at hc ⊢
    exact hc
  live_apart := hap
  placed r hr := by
    rcases h.placed r (hsub r hr) with ⟨s', hs', hold⟩ | hl
    · rw [hs, List.mem_append, List.mem_cons] at hs'
      rcases hs' with hl | rfl | ht
      · exact Or.inl ⟨s', List.mem_append_left _ hl, hold⟩
      · exact Or.inl ⟨s'.moveTo n, List.mem_append_right _ List.mem_cons_self,
          hold.lo_le, hold.le_hi, hbelow r hr hold⟩
      · exact Or.inl ⟨s', List.mem_append_right _ (List.mem_cons_of_mem _ ht), hold⟩
    · exact Or.inr hl

/-- Putting a new live region in front keeps the invariant when it is placed and apart from
the others. -/
theorem Sound.cons_live {a : Arena} (h : a.Sound) {r : Region} (hp : a.Placed r)
    (hap : ∀ q ∈ a.live, r.Apart q) : Sound { a with live := r :: a.live } where
  span_ok := h.span_ok
  chunks_apart := h.chunks_apart
  live_apart := List.pairwise_cons.mpr ⟨hap, h.live_apart⟩
  placed q hq := by
    rcases List.mem_cons.mp hq with rfl | hq
    · exact hp
    · exact h.placed q hq

/-! ## 5. The five moves

`carve` and `addLarge` make a region, `addSpan` makes room for more, and `grow` and `drop` are for
the region that ends at a span's `last`: it can be made longer in place, and it can be given back,
because nothing was carved behind it. -/

/-- Take `n` bytes from `m` on, at or above `last`.  The bytes between `last` and `m` are lost, as
they are where an allocator aligns what it hands out. -/
theorem Sound.carve {a : Arena} (h : a.Sound) {l t : List Span} {s : Span}
    (hs : a.spans = l ++ s :: t) {m n : Nat} (hm : s.last ≤ m) (hn : m + n ≤ s.hi) :
    Sound { a with spans := l ++ s.moveTo (m + n) :: t, live := ⟨m, n⟩ :: a.live } := by
  have hok : s.Ok := h.span_ok s (hs ▸ List.mem_append_right l List.mem_cons_self)
  have hlo := hok.lo_le
  have hmv : Sound { a with spans := l ++ s.moveTo (m + n) :: t, live := a.live } :=
    h.move hs (by omega) hn (fun r hr => hr)
      (fun r _ hold => hold.below_of_le (by omega)) h.live_apart
  refine hmv.cons_live (Or.inl ⟨s.moveTo (m + n), by simp, ?_, ?_, ?_⟩) ?_
  · simp only [Span.lo_moveTo]; omega
  · simp only [Region.stop, Span.hi_moveTo]; exact hn
  · right; simp [Region.stop]
  · intro q hq
    rcases h.holds_or_apart hs hq with hold | hap
    · have hb := hold.below
      unfold Region.Apart Region.stop at *
      simp only
      omega
    · refine hap.symm.mono ?_ ⟨Nat.le_refl _, Nat.le_refl _⟩
      have h1 := hok.header_pos
      unfold Region.Inside Span.whole Region.stop
      simp only
      omega

/-- Add an empty span in a chunk apart from every chunk.  It goes to the end of the list, and it
need not be empty of use: `last` is wherever `Span.Ok` allows it. -/
theorem Sound.addSpan {a : Arena} (h : a.Sound) {s : Span} (hok : s.Ok)
    (hap : ∀ c ∈ a.chunks, s.whole.Apart c) : Sound { a with spans := a.spans ++ [s] } where
  span_ok s' hs' := by
    rcases List.mem_append.mp hs' with hs' | hs'
    · exact h.span_ok s' hs'
    · rw [List.mem_singleton.mp hs']; exact hok
  chunks_apart := by
    have hperm : (s.whole :: a.chunks).Perm
        (chunks { a with spans := a.spans ++ [s] }) := by
      simp only [chunks, List.map_append, List.map_cons, List.map_nil, List.append_assoc]
      exact List.perm_middle.symm
    exact hperm.pairwise_apart.mp (List.pairwise_cons.mpr ⟨hap, h.chunks_apart⟩)
  live_apart := h.live_apart
  placed r hr := by
    rcases h.placed r hr with ⟨s', hs', hold⟩ | hl
    · exact Or.inl ⟨s', List.mem_append_left _ hs', hold⟩
    · exact Or.inr hl

/-- Hand out a whole chunk that is apart from every chunk. -/
theorem Sound.addLarge {a : Arena} (h : a.Sound) {r : Region}
    (hap : ∀ c ∈ a.chunks, r.Apart c) :
    Sound { a with large := r :: a.large, live := r :: a.live } := by
  have hbig : Sound { a with large := r :: a.large } :=
    { span_ok := h.span_ok
      chunks_apart := by
        have hperm : (r :: a.chunks).Perm (chunks { a with large := r :: a.large }) := by
          simp only [chunks]
          exact List.perm_middle.symm
        exact hperm.pairwise_apart.mp (List.pairwise_cons.mpr ⟨hap, h.chunks_apart⟩)
      live_apart := h.live_apart
      placed := fun q hq => by
        rcases h.placed q hq with hs | hl
        · exact Or.inl hs
        · exact Or.inr (List.mem_cons_of_mem _ hl) }
  refine hbig.cons_live (Or.inr List.mem_cons_self) ?_
  intro q hq
  rcases h.placed q hq with ⟨s, hs, hold⟩ | hl
  · have hc := hap s.whole (List.mem_append_left _ (List.mem_map_of_mem hs))
    exact hc.mono ⟨Nat.le_refl _, Nat.le_refl _⟩ (hold.inside (h.span_ok s hs))
  · exact hap q (List.mem_append_right _ hl)

/-- Extend the live region that ends at `last` by `k` bytes.  By `owns_top` it is this span that
holds it, so the bytes behind it are this span's free bytes. -/
theorem Sound.grow {a : Arena} (h : a.Sound) {l t : List Span} {s : Span}
    (hs : a.spans = l ++ s :: t) {r : Region} {rest : List Region}
    (hlive : a.live.Perm (r :: rest)) (hpos : 0 < r.size) (htop : r.stop = s.last) {k : Nat}
    (hk : s.last + k ≤ s.hi) :
    Sound { a with spans := l ++ s.moveTo (s.last + k) :: t,
                   live := ⟨r.base, r.size + k⟩ :: rest } := by
  have hr : r ∈ a.live := hlive.mem_iff.mpr List.mem_cons_self
  have hhold := h.owns_top hs hr hpos htop
  have hok : s.Ok := h.span_ok s (hs ▸ List.mem_append_right l List.mem_cons_self)
  have hpw := List.pairwise_cons.mp (hlive.pairwise_apart.mp h.live_apart)
  have hsub : ∀ q ∈ rest, q ∈ a.live := fun q hq =>
    hlive.mem_iff.mpr (List.mem_cons_of_mem _ hq)
  have hlo := hok.lo_le
  have hmv : Sound { a with spans := l ++ s.moveTo (s.last + k) :: t, live := rest } :=
    h.move hs (by omega) hk hsub (fun q _ hold => hold.below_of_le (by omega)) hpw.2
  have h1 := hhold.lo_le
  refine hmv.cons_live (Or.inl ⟨s.moveTo (s.last + k), by simp, ?_, ?_, ?_⟩) ?_
  · simpa using h1
  · simp only [Region.stop, Span.hi_moveTo] at *; omega
  · right; simp only [Region.stop, Span.last_moveTo] at *; omega
  · intro q hq
    have hrq := hpw.1 q hq
    rcases h.holds_or_apart hs (hsub q hq) with hold | hap
    · have hb := hold.below
      unfold Region.Apart Region.stop at *
      simp only at *
      omega
    · refine hap.symm.mono ?_ ⟨Nat.le_refl _, Nat.le_refl _⟩
      have h2 := hok.header_pos
      unfold Region.Inside Span.whole Region.stop at *
      simp only at *
      omega

/-- Give the live region that ends at `last` back.  The other live regions of the span end before
it or are empty, since they are apart from it. -/
theorem Sound.drop {a : Arena} (h : a.Sound) {l t : List Span} {s : Span}
    (hs : a.spans = l ++ s :: t) {r : Region} {rest : List Region}
    (hlive : a.live.Perm (r :: rest)) (hpos : 0 < r.size) (htop : r.stop = s.last) :
    Sound { a with spans := l ++ s.moveTo r.base :: t, live := rest } := by
  have hr : r ∈ a.live := hlive.mem_iff.mpr List.mem_cons_self
  have hhold := h.owns_top hs hr hpos htop
  have hpw := List.pairwise_cons.mp (hlive.pairwise_apart.mp h.live_apart)
  have hok : s.Ok := h.span_ok s (hs ▸ List.mem_append_right l List.mem_cons_self)
  have h1 := hok.le_hi
  refine h.move hs hhold.lo_le ?_
    (fun q hq => hlive.mem_iff.mpr (List.mem_cons_of_mem _ hq)) ?_ hpw.2
  · simp only [Region.stop] at htop; omega
  · intro q hq hold
    have hrq := hpw.1 q hq
    have hb := hold.below
    unfold Region.Apart Region.stop at *
    omega

end Arena
