/-
# What a pool hands out does not overlap

The invariant behind the pool and its arrays.  A pool is read as an arena (`Lib/Arena.lean`):
its blocks are the spans, with `sizeof(cw_pool_t)` reserved in the head and
`sizeof(cw_pool_data_t)` in every later block, its large allocations are the chunks handed out
whole, and the live regions are the pool's `cw_pool_large_t` records and whatever the clients
hold.  `Pool.Inv` says that this arena is sound and that the heap's live regions are exactly
the blocks, the large allocations and what belongs to others.

Each function is proved to keep it once: `cw_palloc_small` carves or adds a span,
`cw_palloc_large` adds a large chunk and a record, `cw_array_push` grows the region that ends
at the head's `last` or moves the array, `cw_array_destroy` drops what ends there.  The run
lemma `Reach.inv` follows, and with it the spatial statement about every reachable state.
-/
import Capwap.Pool.Array

namespace Capwap

/-! ## 1. A pool read as an arena

Nothing about a pool is proved by looking at all of its blocks.  The pool is translated into spans
and chunks once, and from there on the five moves of the library do the work; this section is the
translation, and the lemmas that say how a change to a block is a change to one span. -/

/-- A block as a span with `hdr` bytes of header. -/
def Block.span (hdr : Nat) (b : Block) : Span := ⟨b.base, b.base + hdr, b.last, b.fin⟩

/-- A chain of blocks as spans: the head has the longer header, which is where the pool's own
record is. -/
def spansOf : List Block → List Span
  | [] => []
  | b :: bs => b.span sizeofPool :: bs.map (·.span sizeofPoolData)

/-- The spans of a pool. -/
def Pool.spans (p : Pool) : List Span := spansOf p.blocks

/-- The pool, its large allocations `wholes`, and the clients' regions `live`. -/
def Pool.arena (p : Pool) (wholes live : List Region) : Arena := ⟨p.spans, wholes, p.nodes ++ live⟩

/-- The pool invariant: `psize` is the size every block was made with, `wholes` are the regions
of the large allocations, `other` are the heap's live regions that are not this pool's, and
`live` is what the clients hold.  The pool's records lie in its blocks, never in a large
allocation, which is what lets `cw_destroy_pool` read them while it frees those. -/
structure Pool.Inv (A : Alignment) (psize : Nat) (h : Heap) (p : Pool)
    (wholes other live : List Region) : Prop where
  heap_ok : h.Ok
  owned : h.live.Perm (p.spans.map Span.whole ++ wholes ++ other)
  sound : (p.arena wholes live).Sound
  psize_ge : sizeofPool ≤ psize
  psize_dvd : A.bytes ∣ psize
  hi_eq : ∀ s ∈ p.spans, s.hi = s.base + psize
  max_eq : p.max = min (psize - sizeofPool) maxAllocFromPool
  current_lt : p.current < p.blocks.length
  allocs : p.large.map Large.alloc = wholes.map fun r => some r.base
  nodes_in : ∀ r ∈ p.nodes, ∃ c ∈ p.spans.map Span.whole, r.Inside c

theorem Pool.spans_cons (p : Pool) :
    p.spans = p.head.span sizeofPool :: p.rest.map (·.span sizeofPoolData) := rfl

@[simp] theorem Pool.nodes_withBlocks (p : Pool) (bs : List Block) :
    (p.withBlocks bs).nodes = p.nodes := by
  cases bs <;> rfl

@[simp] theorem Pool.large_withBlocks (p : Pool) (bs : List Block) :
    (p.withBlocks bs).large = p.large := by
  cases bs <;> rfl

@[simp] theorem Pool.max_withBlocks (p : Pool) (bs : List Block) :
    (p.withBlocks bs).max = p.max := by
  cases bs <;> rfl

@[simp] theorem Pool.current_withBlocks (p : Pool) (bs : List Block) :
    (p.withBlocks bs).current = p.current := by
  cases bs <;> rfl

theorem Pool.blocks_withBlocks (p : Pool) {bs : List Block} (h : bs ≠ []) :
    (p.withBlocks bs).blocks = bs := by
  cases bs with
  | nil => exact absurd rfl h
  | cons b bs => rfl

/-- Replacing the `last` of one block moves one span, wherever in the chain the block stands. -/
theorem spansOf_replace (L T : List Block) (b : Block) (x : Nat) :
    ∃ l s t, spansOf (L ++ b :: T) = l ++ s :: t ∧
      spansOf (L ++ { b with last := x } :: T) = l ++ s.moveTo x :: t ∧
      s.base = b.base ∧ s.last = b.last ∧ s.hi = b.fin := by
  cases L with
  | nil => exact ⟨[], b.span sizeofPool, _, rfl, rfl, rfl, rfl, rfl⟩
  | cons c L =>
    refine ⟨c.span sizeofPool :: L.map (·.span sizeofPoolData), b.span sizeofPoolData,
      T.map (·.span sizeofPoolData), ?_, ?_, rfl, rfl, rfl⟩
    · simp [spansOf]
    · simp [spansOf, Block.span, Span.moveTo]

/-- Only `failed` can differ between chains with the same spans. -/
theorem spansOf_congr {bs bs' : List Block}
    (h : bs.map (fun b => (b.base, b.last, b.fin)) = bs'.map fun b => (b.base, b.last, b.fin)) :
    spansOf bs = spansOf bs' := by
  have hspan : ∀ hdr (b c : Block), (b.base, b.last, b.fin) = (c.base, c.last, c.fin) →
      b.span hdr = c.span hdr := by
    intro hdr b c hbc
    simp only [Prod.mk.injEq] at hbc
    simp [Block.span, hbc]
  have hmap : ∀ {l l' : List Block},
      l.map (fun b => (b.base, b.last, b.fin)) = l'.map (fun b => (b.base, b.last, b.fin)) →
      l.map (·.span sizeofPoolData) = l'.map (·.span sizeofPoolData) := by
    intro l
    induction l with
    | nil => intro l' hl; cases l' <;> simp at hl ⊢
    | cons b l ih =>
      intro l' hl
      cases l' with
      | nil => simp at hl
      | cons c l' =>
        simp only [List.map_cons, List.cons.injEq] at hl ⊢
        exact ⟨hspan _ _ _ hl.1, ih hl.2⟩
  cases bs with
  | nil => cases bs' <;> simp [spansOf] at h ⊢
  | cons b bs =>
    cases bs' with
    | nil => simp at h
    | cons c bs' =>
      simp only [List.map_cons, List.cons.injEq] at h
      simp only [spansOf, List.cons.injEq]
      exact ⟨hspan _ _ _ h.1, hmap h.2⟩

/-! ## 2. The two loops of the block allocator

Each loop is described by what it leaves, and is not unfolded again.  The search changes one
block's `last`; counting failures changes no number the arena knows of, so it can be forgotten here
and is taken up in `Pool/Window.lean`. -/

/-- What a successful search did: one block's `last` moved behind the new region, which begins at
the old `last`, aligned if that was asked for.  The block has room for it, as words count room. -/
theorem searchSmall_some {A : Alignment} {size : Nat} {align : Bool} :
    ∀ {bs : List Block} {m : Nat} {bs' : List Block},
      searchSmall A size align bs = some (m, bs') →
      ∃ L b T, bs = L ++ b :: T ∧ bs' = L ++ { b with last := wadd m size } :: T ∧
        m = (if align then alignPtr b.last A.bytes else b.last) ∧ size ≤ wsub b.fin m := by
  intro bs
  induction bs with
  | nil =>
    intro m bs' h
    simp [searchSmall] at h
  | cons b bs ih =>
    intro m bs' h
    simp only [searchSmall] at h
    generalize hm : (if align = true then alignPtr b.last A.bytes else b.last) = m₀ at h
    by_cases hfit : size ≤ wsub b.fin m₀
    · rw [if_pos hfit] at h
      simp only [Option.some.injEq, Prod.mk.injEq] at h
      obtain ⟨rfl, rfl⟩ := h
      exact ⟨[], b, bs, rfl, rfl, hm.symm, hfit⟩
    · rw [if_neg hfit] at h
      obtain ⟨r, hr, he⟩ := Option.map_eq_some_iff.mp h
      simp only [Prod.mk.injEq] at he
      obtain ⟨rfl, rfl⟩ := he
      obtain ⟨L, c, T, rfl, hbs', hm', hfit'⟩ := ih (m := r.1) hr
      exact ⟨b :: L, c, T, rfl, by rw [hbs']; rfl, hm', hfit'⟩

/-- Counting failures touches only `failed`. -/
theorem countFailures_geom : ∀ (bs : List Block) (i cur : Nat),
    (countFailures i cur bs).1.map (fun b => (b.base, b.last, b.fin))
      = bs.map fun b => (b.base, b.last, b.fin) := by
  intro bs i cur
  induction i, cur, bs using countFailures.induct with
  | case1 => rfl
  | case2 => rfl
  | case3 i cur b c bs cur' ih =>
    unfold countFailures
    simp only [List.map_cons, List.cons.injEq, true_and]
    exact ih

theorem countFailures_length (bs : List Block) (i cur : Nat) :
    (countFailures i cur bs).1.length = bs.length := by
  have h := congrArg List.length (countFailures_geom bs i cur)
  simpa using h

/-- `current` stays on a block of the chain. -/
theorem countFailures_current : ∀ (bs : List Block) (i cur : Nat), cur < i + bs.length →
    (countFailures i cur bs).2 < i + bs.length := by
  intro bs i cur
  induction i, cur, bs using countFailures.induct with
  | case1 =>
    intro h
    exact h
  | case2 =>
    intro h
    exact h
  | case3 i cur b c bs cur' ih =>
    intro h
    have hlt : cur' < i + 1 + (c :: bs).length := by
      simp only [cur', List.length_cons] at h ⊢
      split <;> omega
    have hrec := ih hlt
    change (countFailures (i + 1) cur' (c :: bs)).2 < i + (b :: c :: bs).length
    simp only [List.length_cons] at hrec ⊢
    omega

/-! ## 3. `cw_palloc_small`

Two ways to success: a block has room, and the region is carved from it; or a block is added and
the region is the first thing in it.  Either way the client's region comes on top of those that
were held, and the bytes are left alone.  The only way to failure is that the system has no
block. -/

namespace Pool.Inv

variable {A : Alignment} {psize : Nat} {h : Heap} {p : Pool} {wholes other live : List Region}

/-- Every chunk of the pool is live in the heap. -/
theorem chunk_mem (hI : p.Inv A psize h wholes other live) {c : Region}
    (hc : c ∈ (p.arena wholes live).chunks) : c ∈ h.live :=
  hI.owned.mem_iff.mpr (List.mem_append_left _ hc)

/-- The numbers of one span: its base is 16-aligned, and it ends in the user half. -/
theorem span_bounds (hI : p.Inv A psize h wholes other live) {s : Span} (hs : s ∈ p.spans) :
    0 < s.base ∧ 16 ∣ s.base ∧ s.hi = s.base + psize ∧ s.hi ≤ userTop := by
  have hmem : s.whole ∈ h.live :=
    hI.chunk_mem (List.mem_append_left _ (List.mem_map_of_mem hs))
  obtain ⟨h0, h16, htop⟩ := hI.heap_ok.granted _ hmem
  have hhi := hI.hi_eq s hs
  refine ⟨h0, h16, hhi, ?_⟩
  simp only [Region.stop, Span.whole] at htop
  omega

/-- A client's region ends in the user half of the address space. -/
theorem live_stop_le (hI : p.Inv A psize h wholes other live) {r : Region} (hr : r ∈ live) :
    r.stop ≤ userTop := by
  rcases hI.sound.placed r (List.mem_append_right _ hr) with ⟨s, hs, hold⟩ | hl
  · exact hold.le_hi.trans (hI.span_bounds hs).2.2.2
  · exact (hI.heap_ok.granted r (hI.chunk_mem (List.mem_append_right _ hl))).2.2

/-- The clients' regions may be reordered and forgotten. -/
theorem of_live (hI : p.Inv A psize h wholes other live) {live₁ live' : List Region}
    (hp : live.Perm live₁) (hs : live'.Sublist live₁) : p.Inv A psize h wholes other live' :=
  { hI with
    sound := hI.sound.of_live (hp.append_left _) (hs.append_left _) }

/-- Another heap with the same live regions up to order and to what belongs to others. -/
theorem of_heap (hI : p.Inv A psize h wholes other live) {h' : Heap} {other' : List Region}
    (hok : h'.Ok) (hlive : h'.live.Perm (p.spans.map Span.whole ++ wholes ++ other')) :
    p.Inv A psize h' wholes other' live :=
  { hI with heap_ok := hok, owned := hlive }

/-- Carving from one block of the chain keeps the invariant, and the region lies in a block.  The
bounds of the block, in the user half, are what keeps `m + size` from wrapping. -/
theorem carve (hI : p.Inv A psize h wholes other live) {L T : List Block} {b : Block}
    (hb : p.blocks = L ++ b :: T) {m size : Nat} (hm : b.last ≤ m) (hfit : m + size ≤ b.fin)
    {p' : Pool} (hp' : p' = p.withBlocks (L ++ { b with last := m + size } :: T)) :
    p'.Inv A psize h wholes other (⟨m, size⟩ :: live) ∧
      ∃ c ∈ p'.spans.map Span.whole, Region.Inside ⟨m, size⟩ c := by
  have hne : L ++ { b with last := m + size } :: T ≠ [] := by simp
  obtain ⟨l, s, t, hsp, hsp', hbase, hlast, hhi⟩ := spansOf_replace L T b (m + size)
  have hspans : p.spans = l ++ s :: t := by rw [Pool.spans, hb, hsp]
  have hspans' : p'.spans = l ++ s.moveTo (m + size) :: t := by
    rw [Pool.spans, hp', p.blocks_withBlocks hne, hsp']
  have hwhole : p'.spans.map Span.whole = p.spans.map Span.whole := by
    rw [hspans, hspans']
    simp
  have hnodes : p'.nodes = p.nodes := by rw [hp', Pool.nodes_withBlocks]
  have hs : s ∈ p.spans := by rw [hspans]; simp
  have hok := hI.sound.span_ok s hs
  refine ⟨⟨hI.heap_ok, hwhole ▸ hI.owned, ?_, hI.psize_ge, hI.psize_dvd, ?_, ?_, ?_, ?_, ?_⟩,
    s.whole, ?_, ?_⟩
  · have hc := hI.sound.carve (l := l) (t := t) (s := s) hspans (m := m) (n := size)
      (by omega) (by omega)
    have hperm : (⟨m, size⟩ :: (p.nodes ++ live)).Perm (p.nodes ++ ⟨m, size⟩ :: live) :=
      List.perm_middle.symm
    have := hc.of_live hperm (List.Sublist.refl _)
    simpa only [Pool.arena, hspans', hnodes] using this
  · intro s' hs'
    rw [hspans', List.mem_append, List.mem_cons] at hs'
    have hall := hI.hi_eq
    rw [hspans] at hall
    rcases hs' with hl | rfl | ht
    · exact hall s' (by simp [hl])
    · exact hall s (by simp)
    · exact hall s' (by simp [ht])
  · rw [hp', Pool.max_withBlocks]; exact hI.max_eq
  · have hcur := hI.current_lt
    rw [hb] at hcur
    rw [hp', Pool.current_withBlocks, p.blocks_withBlocks hne]
    simpa using hcur
  · rw [hp', Pool.large_withBlocks]; exact hI.allocs
  · rw [hnodes, hwhole]; exact hI.nodes_in
  · rw [hwhole]; exact List.mem_map_of_mem hs
  · obtain ⟨h1, h2, h3⟩ := hok
    unfold Region.Inside Span.whole Region.stop
    simp only
    omega

/-- A block's own numbers, from its span. -/
theorem block_bounds (hI : p.Inv A psize h wholes other live) {L T : List Block} {b : Block}
    (hb : p.blocks = L ++ b :: T) :
    16 ∣ b.base ∧ b.last ≤ b.fin ∧ b.fin = b.base + psize ∧ b.fin ≤ userTop := by
  obtain ⟨l, s, t, hsp, -, hbase, hlast, hhi⟩ := spansOf_replace L T b 0
  have hs : s ∈ p.spans := by rw [Pool.spans, hb, hsp]; simp
  obtain ⟨-, h16, h1, h2⟩ := hI.span_bounds hs
  have hok := hI.sound.span_ok s hs
  have := hok.le_hi
  rw [← hbase, ← hlast, ← hhi]
  exact ⟨h16, this, h1, h2⟩

/-- A successful search carves. -/
theorem search (hI : p.Inv A psize h wholes other live) {size : Nat} {align : Bool} {m : Nat}
    {bs : List Block} (hs : searchSmall A size align (p.blocks.drop p.current) = some (m, bs)) :
    (p.withBlocks (p.blocks.take p.current ++ bs)).Inv A psize h wholes other
        (⟨m, size⟩ :: live) ∧ (align = true → A.bytes ∣ m) ∧
      ∃ c ∈ (p.withBlocks (p.blocks.take p.current ++ bs)).spans.map Span.whole,
        Region.Inside ⟨m, size⟩ c := by
  obtain ⟨L, b, T, hdrop, rfl, hm, hfit⟩ := searchSmall_some hs
  have hb : p.blocks = (p.blocks.take p.current ++ L) ++ b :: T := by
    rw [List.append_assoc, ← hdrop, List.take_append_drop]
  obtain ⟨h16, hle, hfin, htop⟩ := hI.block_bounds hb
  have hA := A.bytes_pos
  have hA' := A.bytes_le
  have hsmall : b.last + (A.bytes - 1) < wordSize := by
    unfold userTop at htop
    unfold wordSize
    omega
  have hdvd : A.bytes ∣ b.fin := by
    rw [hfin]
    exact Nat.dvd_add (Nat.dvd_trans A.bytes_dvd h16) hI.psize_dvd
  have hmlast : b.last ≤ m ∧ m ≤ b.fin ∧ (align = true → A.bytes ∣ m) := by
    rw [hm]
    cases align with
    | true =>
      have hsp := alignPtr_spec hA hsmall
      exact ⟨hsp.1, alignPtr_le hA hsmall hle hdvd, fun _ => hsp.2.2⟩
    | false => exact ⟨Nat.le_refl _, hle, fun h => absurd h (by simp)⟩
  have hword : b.fin < wordSize := by
    unfold userTop at htop
    unfold wordSize
    omega
  rw [wsub_eq hmlast.2.1 hword] at hfit
  have hwadd : wadd m size = m + size := wadd_eq (by omega)
  rw [hwadd]
  obtain ⟨hinv, hin⟩ := hI.carve hb hmlast.1 (show m + size ≤ b.fin by omega) rfl
  rw [List.append_assoc] at hinv hin
  exact ⟨hinv, hmlast.2.2, hin⟩

/-- The head block's size is what every block is made with. -/
theorem psize_eq (hI : p.Inv A psize h wholes other live) :
    wsub p.head.fin p.head.base = psize := by
  have hs : p.head.span sizeofPool ∈ p.spans := List.mem_cons_self
  obtain ⟨-, -, hhi, htop⟩ := hI.span_bounds hs
  simp only [Block.span] at hhi htop
  have hword : p.head.fin < wordSize := by
    unfold userTop at htop
    unfold wordSize
    omega
  rw [wsub_eq (by omega) hword]
  omega

/-- Appending a block with one region behind its header keeps the invariant.  `hfit` is what the
caller knows from `size <= pool->max`: the region fits into an empty block. -/
theorem addBlock (hI : p.Inv A psize h wholes other live) {base size : Nat}
    (hfit : size + sizeofPoolData ≤ psize) {h' : Heap}
    (hr : h.request psize = (some base, h')) {bs : List Block} {cur : Nat}
    (hgeom : bs.map (fun b => (b.base, b.last, b.fin))
      = p.blocks.map fun b => (b.base, b.last, b.fin))
    (hcur : cur < bs.length) {p' : Pool}
    (hp' : p' = { p.withBlocks (bs ++ [⟨base, base + sizeofPoolData + size, base + psize, 0⟩]) with
      current := cur }) :
    p'.Inv A psize h' wholes other (⟨base + sizeofPoolData, size⟩ :: live) ∧
      ∃ c ∈ p'.spans.map Span.whole, Region.Inside ⟨base + sizeofPoolData, size⟩ c := by
  have hpos : 0 < psize := by
    have := hI.psize_ge
    unfold sizeofPool at this
    omega
  have hok' := hI.heap_ok.request hpos hr
  obtain ⟨⟨h0, h16, htop, hap⟩, rfl⟩ := Heap.request_some hr
  have hblocks : p'.blocks = bs ++ [⟨base, base + sizeofPoolData + size, base + psize, 0⟩] := by
    rw [hp']
    exact p.blocks_withBlocks (by simp)
  have hlarge : p'.large = p.large := by rw [hp']; simp
  set fresh : Span := ⟨base, base + sizeofPoolData, base + sizeofPoolData, base + psize⟩
    with hfresh
  have hspans : p'.spans = p.spans ++ [fresh.moveTo (base + sizeofPoolData + size)] := by
    rw [Pool.spans, hblocks, Pool.spans, ← spansOf_congr hgeom]
    cases bs with
    | nil => exact absurd hcur (Nat.not_lt_zero _)
    | cons b bs => simp [spansOf, Block.span, Span.moveTo, hfresh]
  have hwhole : fresh.whole = ⟨base, psize⟩ := by simp [Span.whole, hfresh]
  have hfreshok : fresh.Ok := by
    constructor <;> simp only [hfresh] <;> unfold sizeofPoolData at * <;> omega
  -- the arena gets an empty span, and the region is carved from it
  have hadd := hI.sound.addSpan hfreshok fun c hc => by
    rw [hwhole]
    exact (hap c (hI.chunk_mem hc)).symm
  have hcarve := hadd.carve (l := p.spans) (t := []) (s := fresh) rfl
    (m := base + sizeofPoolData) (n := size) (Nat.le_refl _) (by simp only [hfresh]; omega)
  have hperm : (⟨base + sizeofPoolData, size⟩ :: (p.nodes ++ live)).Perm
      (p.nodes ++ ⟨base + sizeofPoolData, size⟩ :: live) := List.perm_middle.symm
  have hnodes : p'.nodes = p.nodes := by rw [Pool.nodes, hlarge, Pool.nodes]
  have hwholes : p'.spans.map Span.whole = p.spans.map Span.whole ++ [⟨base, psize⟩] := by
    rw [hspans]
    simp [hwhole]
  refine ⟨⟨hok', ?_, ?_, hI.psize_ge, hI.psize_dvd, ?_, ?_, ?_, by rw [hlarge]; exact hI.allocs,
    ?_⟩, ⟨base, psize⟩, by rw [hwholes]; simp, ?_⟩
  · rw [hspans]
    simp only [List.map_append, List.map_cons, List.map_nil, Span.whole_moveTo, hwhole,
      List.append_assoc, List.singleton_append]
    have := hI.owned
    rw [List.append_assoc] at this
    exact (this.cons _).trans List.perm_middle.symm
  · have := hcarve.of_live hperm (List.Sublist.refl _)
    simpa only [Pool.arena, hspans, hnodes] using this
  · intro s hs
    rw [hspans] at hs
    rcases List.mem_append.mp hs with hs | hs
    · exact hI.hi_eq s hs
    · rw [List.mem_singleton.mp hs]
      simp [hfresh]
  · rw [hp', ← hI.max_eq]
    simp
  · rw [hblocks, hp', List.length_append]
    simp only [List.length_singleton]
    omega
  · rw [hnodes, hwholes]
    intro r hr
    obtain ⟨c, hc, hin⟩ := hI.nodes_in r hr
    exact ⟨c, List.mem_append_left _ hc, hin⟩
  · unfold Region.Inside Region.stop
    simp only
    omega

/-- `cw_palloc_block` returns the first payload address of a new block. -/
theorem block (hI : p.Inv A psize h wholes other live) {size : Nat}
    (hfit : size + sizeofPoolData ≤ psize) {m : Nat} {p' : Pool} {h' : Heap}
    (hr : pallocBlock A p size h = (some m, p', h')) :
    p'.Inv A psize h' wholes other (⟨m, size⟩ :: live) ∧ A.bytes ∣ m ∧ h'.bytes = h.bytes ∧
      ∃ c ∈ p'.spans.map Span.whole, Region.Inside ⟨m, size⟩ c := by
  simp only [pallocBlock, hI.psize_eq, cwMemalign] at hr
  cases hq : h.request psize with
  | mk ans hh =>
    rw [hq] at hr
    cases ans with
    | none => exact absurd (congrArg Prod.fst hr) (by simp)
    | some base =>
      obtain ⟨⟨h0, h16, htop, -⟩, hbytes⟩ := Heap.request_some hq
      -- none of the sums of the new block wraps
      have hword : base + psize < wordSize ∧ base + sizeofPoolData + size < wordSize ∧
          base + sizeofPoolData + (A.bytes - 1) < wordSize := by
        have := A.bytes_le
        have := hI.psize_ge
        unfold userTop at htop
        unfold wordSize sizeofPool sizeofPoolData at *
        omega
      have hdvd : A.bytes ∣ base + sizeofPoolData :=
        Nat.dvd_trans A.bytes_dvd (Nat.dvd_add h16 ⟨2, rfl⟩)
      have hb32 : wadd base sizeofPoolData = base + sizeofPoolData := wadd_eq (by omega)
      have halign : alignPtr (base + sizeofPoolData) A.bytes = base + sizeofPoolData :=
        alignPtr_of_dvd A.bytes_pos hword.2.2 hdvd
      simp only [hb32, halign, wadd_eq hword.1, wadd_eq hword.2.1, Prod.mk.injEq,
        Option.some.injEq] at hr
      obtain ⟨rfl, hp', rfl⟩ := hr
      have hcur := hI.current_lt
      have hlen : (p.blocks.take p.current
          ++ (countFailures p.current p.current (p.blocks.drop p.current)).1).length
          = p.blocks.length := by
        rw [List.length_append, countFailures_length, List.length_take, List.length_drop]
        omega
      have hlt := countFailures_current (p.blocks.drop p.current) p.current p.current
        (by rw [List.length_drop]; omega)
      rw [List.length_drop] at hlt
      have hgeom : (p.blocks.take p.current
          ++ (countFailures p.current p.current (p.blocks.drop p.current)).1).map
            (fun b => (b.base, b.last, b.fin)) = p.blocks.map fun b => (b.base, b.last, b.fin) := by
        rw [List.map_append, countFailures_geom, ← List.map_append, List.take_append_drop]
      obtain ⟨hinv, hin⟩ := hI.addBlock hfit hq hgeom (by omega) hp'.symm
      exact ⟨hinv, hdvd, by rw [hbytes], hin⟩

/-- `cw_palloc_small`, successful. -/
theorem small (hI : p.Inv A psize h wholes other live) {size : Nat}
    (hfit : size + sizeofPoolData ≤ psize) {align : Bool} {m : Nat} {p' : Pool} {h' : Heap}
    (hr : pallocSmall A p size align h = (some m, p', h')) :
    p'.Inv A psize h' wholes other (⟨m, size⟩ :: live) ∧ (align = true → A.bytes ∣ m) ∧
      h'.bytes = h.bytes ∧ ∃ c ∈ p'.spans.map Span.whole, Region.Inside ⟨m, size⟩ c := by
  unfold pallocSmall at hr
  cases hs : searchSmall A size align (p.blocks.drop p.current) with
  | some r =>
    obtain ⟨m', bs⟩ := r
    rw [hs] at hr
    simp only [Prod.mk.injEq, Option.some.injEq] at hr
    obtain ⟨rfl, rfl, rfl⟩ := hr
    obtain ⟨hinv, hal, hin⟩ := hI.search hs
    exact ⟨hinv, hal, rfl, hin⟩
  | none =>
    rw [hs] at hr
    obtain ⟨hinv, hal, hbytes, hin⟩ := hI.block hfit hr
    exact ⟨hinv, fun _ => hal, hbytes, hin⟩

end Pool.Inv

/-- `cw_palloc_small`, failed: one answer of the system allocator is used up. -/
theorem pallocSmall_none {A : Alignment} {p p' : Pool} {size : Nat} {align : Bool} {h h' : Heap}
    (hr : pallocSmall A p size align h = (none, p', h')) :
    p' = p ∧ h' = { h with calls := h.calls + 1 } := by
  unfold pallocSmall at hr
  split at hr
  · exact absurd (congrArg Prod.fst hr) (by simp)
  · simp only [pallocBlock, cwMemalign] at hr
    cases hq : h.request (wsub p.head.fin p.head.base) with
    | mk ans hh =>
      rw [hq] at hr
      cases ans with
      | some base => exact absurd (congrArg Prod.fst hr) (by simp)
      | none =>
        simp only [Prod.mk.injEq, true_and] at hr
        exact ⟨hr.1.symm, hr.2 ▸ Heap.request_none hq⟩

/-! ## 4. `cw_palloc_large` and the three entry points

A large allocation adds two things, the system's region and the record for it, and the invariant
has to hold between the two as well: while the record is looked for, the new region belongs to
nobody (`request`), and it is the pool's once the record points at it (`adopt`). -/

/-- No record is empty, so none is reused.  The loop over the first records is dead code in this
repository, which has no `cw_pfree`. -/
theorem reuseLarge_none {q : Nat} : ∀ {ls : List Large} (n : Nat),
    (∀ l ∈ ls, l.alloc ≠ none) → reuseLarge q n ls = none := by
  intro ls
  induction ls with
  | nil =>
    intro n _
    rfl
  | cons l ls ih =>
    intro n hl
    unfold reuseLarge
    rw [if_neg (hl l List.mem_cons_self)]
    split
    · rfl
    · rw [ih (n + 1) fun k hk => hl k (List.mem_cons_of_mem _ hk)]
      rfl

namespace Pool.Inv

variable {A : Alignment} {psize : Nat} {h : Heap} {p : Pool} {wholes other live : List Region}

theorem alloc_ne_none (hI : p.Inv A psize h wholes other live) : ∀ l ∈ p.large, l.alloc ≠ none := by
  intro l hl
  have hmem : l.alloc ∈ p.large.map Large.alloc := List.mem_map_of_mem hl
  rw [hI.allocs] at hmem
  obtain ⟨r, -, hr⟩ := List.mem_map.mp hmem
  rw [← hr]
  simp

/-- A fresh region belongs to nobody yet. -/
theorem request (hI : p.Inv A psize h wholes other live) {size q : Nat} (hpos : 0 < size)
    {h' : Heap} (hr : h.request size = (some q, h')) :
    p.Inv A psize h' wholes (⟨q, size⟩ :: other) live := by
  have hok := hI.heap_ok.request hpos hr
  obtain ⟨-, rfl⟩ := Heap.request_some hr
  exact hI.of_heap hok ((hI.owned.cons _).trans List.perm_middle.symm)

/-- The records and the allocations of the pool, one more of each.  The record has to lie in a
block. -/
theorem adopt {node q size : Nat}
    (hI : p.Inv A psize h wholes (⟨q, size⟩ :: other) (⟨node, sizeofPoolLarge⟩ :: live))
    (hin : ∃ c ∈ p.spans.map Span.whole, Region.Inside ⟨node, sizeofPoolLarge⟩ c) :
    ({ p with large := ⟨node, some q⟩ :: p.large } : Pool).Inv A psize h
      (⟨q, size⟩ :: wholes) other (⟨q, size⟩ :: live) := by
  have hap := hI.owned.pairwise_apart.mp hI.heap_ok.apart
  rw [List.pairwise_append] at hap
  have hbig := hI.sound.addLarge (r := ⟨q, size⟩) fun c hc =>
    (hap.2.2 c hc _ List.mem_cons_self).symm
  have hperm : (⟨q, size⟩ :: (p.nodes ++ ⟨node, sizeofPoolLarge⟩ :: live)).Perm
      (⟨node, sizeofPoolLarge⟩ :: p.nodes ++ ⟨q, size⟩ :: live) := by
    rw [List.cons_append]
    exact (List.Perm.cons _ List.perm_middle).trans
      ((List.Perm.swap _ _ _).trans (List.Perm.cons _ List.perm_middle.symm))
  refine ⟨hI.heap_ok, ?_, hbig.of_live hperm (List.Sublist.refl _), hI.psize_ge, hI.psize_dvd,
    hI.hi_eq, hI.max_eq, hI.current_lt, ?_, ?_⟩
  · have := hI.owned
    refine this.trans ?_
    simp only [List.append_assoc]
    refine List.Perm.append_left _ ?_
    exact List.perm_middle
  · simp only [List.map_cons, List.cons.injEq, true_and]
    exact hI.allocs
  · intro r hr
    rcases List.mem_cons.mp hr with rfl | hr
    · exact hin
    · exact hI.nodes_in r hr

/-- `cw_palloc_large`, successful. -/
theorem large (hI : p.Inv A psize h wholes other live) {size : Nat} (hsize : p.max < size)
    {m : Nat} {p' : Pool} {h' : Heap} (hr : pallocLarge A p size h = (some m, p', h')) :
    ∃ wholes', p'.Inv A psize h' wholes' other (⟨m, size⟩ :: live) ∧ A.bytes ∣ m ∧
      h'.bytes = h.bytes := by
  simp only [pallocLarge, cwAlloc] at hr
  cases hq : h.request size with
  | mk ans hh =>
    rw [hq] at hr
    cases ans with
    | none => exact absurd (congrArg Prod.fst hr) (by simp)
    | some q =>
      have hIq := hI.request (by omega) hq
      obtain ⟨⟨-, h16, -, -⟩, hh_eq⟩ := Heap.request_some hq
      simp only [reuseLarge_none 0 hI.alloc_ne_none] at hr
      cases hs : pallocSmall A p sizeofPoolLarge true hh with
      | mk ans' rest =>
        obtain ⟨p₁, h₁⟩ := rest
        rw [hs] at hr
        cases ans' with
        | none => exact absurd (congrArg Prod.fst hr) (by simp)
        | some node =>
          simp only [Prod.mk.injEq, Option.some.injEq] at hr
          obtain ⟨rfl, rfl, rfl⟩ := hr
          have hfit : sizeofPoolLarge + sizeofPoolData ≤ psize := by
            have := hI.psize_ge
            unfold sizeofPool sizeofPoolLarge sizeofPoolData at *
            omega
          obtain ⟨hI₁, -, hbytes, hin⟩ := hIq.small hfit hs
          exact ⟨_, hI₁.adopt hin, Nat.dvd_trans A.bytes_dvd h16, by rw [hbytes, hh_eq]⟩

/-- `cw_palloc_large`, failed: the large block, if there was one, has been freed again. -/
theorem large_none (hI : p.Inv A psize h wholes other live) {size : Nat} (hsize : p.max < size)
    {p' : Pool} {h' : Heap} (hr : pallocLarge A p size h = (none, p', h')) :
    p' = p ∧ p'.Inv A psize h' wholes other live ∧ h'.live = h.live ∧ h'.bytes = h.bytes := by
  simp only [pallocLarge, cwAlloc] at hr
  cases hq : h.request size with
  | mk ans hh =>
    rw [hq] at hr
    cases ans with
    | none =>
      simp only [Prod.mk.injEq, true_and] at hr
      obtain ⟨rfl, rfl⟩ := hr
      obtain rfl := Heap.request_none hq
      exact ⟨rfl, hI.of_heap hI.heap_ok.use hI.owned, rfl, rfl⟩
    | some q =>
      have hIq := hI.request (by omega) hq
      obtain ⟨-, hh_eq⟩ := Heap.request_some hq
      simp only [reuseLarge_none 0 hI.alloc_ne_none] at hr
      cases hs : pallocSmall A p sizeofPoolLarge true hh with
      | mk ans' rest =>
        obtain ⟨p₁, h₁⟩ := rest
        rw [hs] at hr
        cases ans' with
        | some node => exact absurd (congrArg Prod.fst hr) (by simp)
        | none =>
          simp only [Prod.mk.injEq, true_and] at hr
          obtain ⟨rfl, rfl⟩ := hr
          obtain ⟨rfl, rfl⟩ := pallocSmall_none hs
          have hlive : ({ hh with calls := hh.calls + 1 } : Heap).live
              = ⟨q, size⟩ :: h.live := by rw [hh_eq]
          have hmem : (⟨q, size⟩ : Region) ∈ ({ hh with calls := hh.calls + 1 } : Heap).live := by
            rw [hlive]
            exact List.mem_cons_self
          have hok := hIq.heap_ok.use.free hmem
          have hfree := hIq.heap_ok.use.free_eq hmem
          have hlive' : (Heap.free { hh with calls := hh.calls + 1 } q).live = h.live := by
            have herase : (⟨q, size⟩ :: h.live : List Region).erase ⟨q, size⟩ = h.live :=
              List.erase_cons_head _ _
            rw [hfree]
            exact (congrArg (List.erase · ⟨q, size⟩) hlive).trans herase
          refine ⟨rfl, hI.of_heap hok (hlive' ▸ hI.owned), hlive', ?_⟩
          rw [hfree, hh_eq]

/-- `cw_palloc` (`align`) and `cw_pnalloc`, successful: the two are one function but for the flag,
and the test against `max` is theirs. -/
theorem entry (hI : p.Inv A psize h wholes other live) {size : Nat} {align : Bool} {m : Nat}
    {p' : Pool} {h' : Heap}
    (hr : (if size ≤ p.max then pallocSmall A p size align h else pallocLarge A p size h)
      = (some m, p', h')) :
    ∃ wholes', p'.Inv A psize h' wholes' other (⟨m, size⟩ :: live) ∧
      (align = true → A.bytes ∣ m) ∧ h'.bytes = h.bytes := by
  split at hr
  · rename_i hle
    have hfit : size + sizeofPoolData ≤ psize := by
      have h1 := hI.psize_ge
      rw [hI.max_eq] at hle
      unfold sizeofPool sizeofPoolData at *
      omega
    obtain ⟨hinv, hal, hbytes, -⟩ := hI.small hfit hr
    exact ⟨wholes, hinv, hal, hbytes⟩
  · rename_i hgt
    obtain ⟨wholes', hinv, hal, hbytes⟩ := hI.large (by omega) hr
    exact ⟨wholes', hinv, fun _ => hal, hbytes⟩

/-- `cw_palloc` (`align`) and `cw_pnalloc`, failed. -/
theorem entry_none (hI : p.Inv A psize h wholes other live) {size : Nat} {align : Bool}
    {p' : Pool} {h' : Heap}
    (hr : (if size ≤ p.max then pallocSmall A p size align h else pallocLarge A p size h)
      = (none, p', h')) :
    p' = p ∧ p'.Inv A psize h' wholes other live ∧ h'.live = h.live ∧ h'.bytes = h.bytes := by
  split at hr
  · obtain ⟨rfl, rfl⟩ := pallocSmall_none hr
    exact ⟨rfl, hI.of_heap hI.heap_ok.use hI.owned, rfl, rfl⟩
  · exact hI.large_none (by omega) hr

end Pool.Inv

end Capwap
