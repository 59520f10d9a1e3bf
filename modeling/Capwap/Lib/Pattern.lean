/-
# Patterns that backtrack

A pattern is a list of pieces: one character of a class, a run of characters of a class that is as
long as the rest of the pattern allows (`plus`), or one that is as short (`lazy`).  A run can be
captured.  `Pattern.find` looks for the first place in a text where the pattern matches, and returns
what its groups hold there, as a regular expression without alternatives does.

`Matches` says which texts a pattern stands for, and a match is one of them (`find_sound`).  So each
group holds a run of its class (`find_group`), and a text has no match that lacks a character every
match has (`find_of_absent`).  In the other direction, a pattern matches at the start of a text
whose runs end where their classes do (`matchHere_plus`).
-/
import Mathlib.Data.List.Basic

namespace Pattern

/-- A character of a class, a longest run, kept or not, or a shortest run. -/
inductive Piece (α : Type)
  | one (p : α → Bool)
  | plus (p : α → Bool)
  | group (p : α → Bool)
  | lazy (p : α → Bool)

variable {α β : Type}

/-! ## 1. Matching

The matcher is the backtracking one: a run takes as much as it can and gives characters back one at
a time until the rest of the pattern matches.  `longest` and `shortest` take the rest of the
pattern as the function `k`, so that the recursion is on the text in one and on the pattern in
`matchHere`, and both are structural. -/

/-- A run of one or more characters, the longest after which `k` succeeds.  It first tries to go
on, and stops where it is only if that fails. -/
def longest (p : α → Bool) (k : List α → Option β) : List α → Option (List α × β)
  | [] => none
  | c :: s =>
    if p c then
      match longest p k s with
      | some (t, b) => some (c :: t, b)
      | none => (k s).map fun b => ([c], b)
    else none

/-- A run of any length, the shortest after which `k` succeeds. -/
def shortest (p : α → Bool) (k : List α → Option β) : List α → Option β
  | [] => k []
  | c :: s =>
    match k (c :: s) with
    | some b => some b
    | none => if p c then shortest p k s else none

/-- A match at the start of a text: the groups. -/
def matchHere : List (Piece α) → List α → Option (List (List α))
  | [], _ => some []
  | .one _ :: _, [] => none
  | .one p :: items, c :: s => if p c then matchHere items s else none
  | .plus p :: items, s => (longest p (matchHere items) s).map fun x => x.2
  | .group p :: items, s => (longest p (matchHere items) s).map fun x => x.1 :: x.2
  | .lazy p :: items, s => shortest p (matchHere items) s

/-- The first match in a text: the groups.  The pattern is tried at each place from the left, and
the end of the text is a place too. -/
def find (items : List (Piece α)) : List α → Option (List (List α))
  | [] => matchHere items []
  | c :: s =>
    match matchHere items (c :: s) with
    | some groups => some groups
    | none => find items s

/-! ## 2. What a match is

`Matches` forgets how the matcher searches.  It says which texts the pattern stands for and with
which groups, so it may hold of several splits of one text where the matcher finds one.  Soundness
is the direction that facts about what was found need; which split is found is section 4. -/

/-- The texts a pattern stands for, with what its groups hold. -/
inductive Matches : List (Piece α) → List α → List (List α) → Prop
  | nil : Matches [] [] []
  | one {p : α → Bool} {c : α} {items s groups} (hc : p c = true) (h : Matches items s groups) :
      Matches (.one p :: items) (c :: s) groups
  | plus {p : α → Bool} {t : List α} {items s groups} (hne : t ≠ []) (ht : ∀ c ∈ t, p c = true)
      (h : Matches items s groups) : Matches (.plus p :: items) (t ++ s) groups
  | group {p : α → Bool} {t : List α} {items s groups} (hne : t ≠ []) (ht : ∀ c ∈ t, p c = true)
      (h : Matches items s groups) : Matches (.group p :: items) (t ++ s) (t :: groups)
  | lazy {p : α → Bool} {t : List α} {items s groups} (ht : ∀ c ∈ t, p c = true)
      (h : Matches items s groups) : Matches (.lazy p :: items) (t ++ s) groups

theorem longest_sound {p : α → Bool} {k : List α → Option β} : ∀ {s t : List α} {b : β},
    longest p k s = some (t, b) →
      t ≠ [] ∧ (∀ c ∈ t, p c = true) ∧ ∃ v, s = t ++ v ∧ k v = some b := by
  intro s
  induction s with
  | nil =>
    intro t b h
    cases h
  | cons c s ih =>
    intro t b h
    unfold longest at h
    by_cases hc : p c = true
    · rw [if_pos hc] at h
      cases hl : longest p k s with
      | some x =>
        obtain ⟨t', b'⟩ := x
        rw [hl] at h
        obtain ⟨rfl, rfl⟩ := Prod.mk.inj (Option.some.inj h)
        obtain ⟨-, ht, v, rfl, hk⟩ := ih hl
        exact ⟨by simp, by simpa [hc] using ht, v, rfl, hk⟩
      | none =>
        rw [hl] at h
        obtain ⟨b', hk, hx⟩ := Option.map_eq_some_iff.mp h
        obtain ⟨rfl, rfl⟩ := Prod.mk.inj hx
        exact ⟨by simp, by simpa using hc, s, rfl, hk⟩
    · rw [if_neg hc] at h
      cases h

theorem shortest_sound {p : α → Bool} {k : List α → Option β} : ∀ {s : List α} {b : β},
    shortest p k s = some b → ∃ t v, s = t ++ v ∧ (∀ c ∈ t, p c = true) ∧ k v = some b := by
  intro s
  induction s with
  | nil =>
    intro b h
    exact ⟨[], [], rfl, by simp, h⟩
  | cons c s ih =>
    intro b h
    unfold shortest at h
    cases hk : k (c :: s) with
    | some b' =>
      rw [hk] at h
      obtain rfl := Option.some.inj h
      exact ⟨[], c :: s, rfl, by simp, hk⟩
    | none =>
      rw [hk] at h
      by_cases hc : p c = true
      · simp only [if_pos hc] at h
        obtain ⟨t, v, rfl, ht, hk'⟩ := ih h
        exact ⟨c :: t, v, rfl, by simpa [hc] using ht, hk'⟩
      · simp only [if_neg hc] at h
        cases h

/-- The induction is on the pattern. -/
theorem matchHere_sound : ∀ {items : List (Piece α)} {s : List α} {groups : List (List α)},
    matchHere items s = some groups → ∃ u v, s = u ++ v ∧ Matches items u groups := by
  intro items
  induction items with
  | nil =>
    intro s groups h
    obtain rfl := Option.some.inj h
    exact ⟨[], s, rfl, .nil⟩
  | cons item items ih =>
    intro s groups h
    cases item with
    | one p =>
      cases s with
      | nil => cases h
      | cons c s =>
        unfold matchHere at h
        by_cases hc : p c = true
        · rw [if_pos hc] at h
          obtain ⟨u, v, rfl, hm⟩ := ih h
          exact ⟨c :: u, v, rfl, .one hc hm⟩
        · rw [if_neg hc] at h
          cases h
    | plus p =>
      unfold matchHere at h
      obtain ⟨⟨t, b⟩, hl, rfl⟩ := Option.map_eq_some_iff.mp h
      obtain ⟨hne, ht, v, rfl, hk⟩ := longest_sound hl
      obtain ⟨u, v, rfl, hm⟩ := ih hk
      exact ⟨t ++ u, v, (List.append_assoc ..).symm, .plus hne ht hm⟩
    | group p =>
      unfold matchHere at h
      obtain ⟨⟨t, b⟩, hl, rfl⟩ := Option.map_eq_some_iff.mp h
      obtain ⟨hne, ht, v, rfl, hk⟩ := longest_sound hl
      obtain ⟨u, v, rfl, hm⟩ := ih hk
      exact ⟨t ++ u, v, (List.append_assoc ..).symm, .group hne ht hm⟩
    | lazy p =>
      unfold matchHere at h
      obtain ⟨t, v, rfl, ht, hk⟩ := shortest_sound h
      obtain ⟨u, v, rfl, hm⟩ := ih hk
      exact ⟨t ++ u, v, (List.append_assoc ..).symm, .lazy ht hm⟩

/-- What is found is a text of the pattern. -/
theorem find_sound {items : List (Piece α)} : ∀ {s : List α} {groups : List (List α)},
    find items s = some groups → ∃ a u v, s = a ++ u ++ v ∧ Matches items u groups := by
  intro s
  induction s with
  | nil =>
    intro groups h
    obtain ⟨u, v, hs, hm⟩ := matchHere_sound h
    exact ⟨[], u, v, hs, hm⟩
  | cons c s ih =>
    intro groups h
    unfold find at h
    cases hh : matchHere items (c :: s) with
    | some g =>
      rw [hh] at h
      obtain rfl := Option.some.inj h
      obtain ⟨u, v, hs, hm⟩ := matchHere_sound hh
      exact ⟨[], u, v, hs, hm⟩
    | none =>
      rw [hh] at h
      obtain ⟨a, u, v, rfl, hm⟩ := ih h
      exact ⟨c :: a, u, v, rfl, hm⟩

/-- The class of a group. -/
def grouped : Piece α → Option (α → Bool)
  | .group p => some p
  | _ => none

/-- The groups of a match hold runs of their classes. -/
theorem Matches.groups {items : List (Piece α)} {s : List α} {groups : List (List α)}
    (h : Matches items s groups) :
    List.Forall₂ (fun p t => t ≠ [] ∧ ∀ c ∈ t, p c = true) (items.filterMap grouped) groups := by
  induction h with
  | nil => exact .nil
  | one hc h ih => exact ih
  | plus hne ht h ih => exact ih
  | group hne ht h ih => exact .cons ⟨hne, ht⟩ ih
  | lazy ht h ih => exact ih

/-- So does each group of what is found. -/
theorem find_group {items : List (Piece α)} {s : List α} {groups : List (List α)} {p : α → Bool}
    (i : Nat) (h : groups ∈ (find items s).toList) (hp : (items.filterMap grouped)[i]? = some p) :
    groups.getD i [] ≠ [] ∧ ∀ c ∈ groups.getD i [], p c = true := by
  obtain ⟨a, u, v, -, hm⟩ := find_sound (Option.mem_toList.mp h)
  have hgroups := hm.groups
  generalize items.filterMap grouped = ps at hgroups hp
  clear h hm
  induction hgroups generalizing i with
  | nil => cases hp
  | cons ht hgroups ih =>
    cases i with
    | zero =>
      obtain rfl := Option.some.inj hp
      exact ht
    | succ i => exact ih i hp

/-- A match has a character of each class that the pattern asks one of. -/
theorem Matches.exists_one {items : List (Piece α)} {s : List α} {groups : List (List α)}
    (h : Matches items s groups) {p : α → Bool} (hp : .one p ∈ items) : ∃ c ∈ s, p c = true := by
  induction h with
  | nil => cases hp
  | @one q c items s groups hc _ ih =>
    rcases List.mem_cons.mp hp with heq | hp
    · obtain rfl := Piece.one.inj heq
      exact ⟨c, List.mem_cons_self, hc⟩
    · obtain ⟨x, hx, hpx⟩ := ih hp
      exact ⟨x, List.mem_cons_of_mem _ hx, hpx⟩
  | @plus q t items s groups _ _ _ ih =>
    obtain ⟨x, hx, hpx⟩ := ih ((List.mem_cons.mp hp).resolve_left (by simp))
    exact ⟨x, List.mem_append_right _ hx, hpx⟩
  | @group q t items s groups _ _ _ ih =>
    obtain ⟨x, hx, hpx⟩ := ih ((List.mem_cons.mp hp).resolve_left (by simp))
    exact ⟨x, List.mem_append_right _ hx, hpx⟩
  | @lazy q t items s groups _ _ ih =>
    obtain ⟨x, hx, hpx⟩ := ih ((List.mem_cons.mp hp).resolve_left (by simp))
    exact ⟨x, List.mem_append_right _ hx, hpx⟩

/-- No match without a character that every match has.  Most lines of a file are turned down by
most patterns for this reason alone, and the proof does not look at the matcher. -/
theorem find_of_absent {items : List (Piece α)} {p : α → Bool} (hp : .one p ∈ items) {s : List α}
    (h : ∀ c ∈ s, p c = false) : find items s = none := by
  cases hf : find items s with
  | none => rfl
  | some groups =>
    obtain ⟨a, u, v, rfl, hm⟩ := find_sound hf
    obtain ⟨c, hc, hpc⟩ := hm.exists_one hp
    have hfalse := h c (by simp [hc])
    rw [hfalse] at hpc
    cases hpc

/-! ## 3. Parts of a match

Patterns are written as parts in a row, `items ++ items'`, with literal texts between the runs.  A
match of the whole is taken apart along these seams, and a literal text matches itself only. -/

theorem Matches.of_plus {p : α → Bool} {items : List (Piece α)} {s : List α}
    {groups : List (List α)} (h : Matches (.plus p :: items) s groups) :
    ∃ t s', s = t ++ s' ∧ t ≠ [] ∧ (∀ c ∈ t, p c = true) ∧ Matches items s' groups := by
  cases h with
  | plus hne ht h => exact ⟨_, _, rfl, hne, ht, h⟩

theorem Matches.of_group {p : α → Bool} {items : List (Piece α)} {s : List α}
    {groups : List (List α)} (h : Matches (.group p :: items) s groups) :
    ∃ t s' groups', s = t ++ s' ∧ groups = t :: groups' ∧ t ≠ [] ∧ (∀ c ∈ t, p c = true) ∧
      Matches items s' groups' := by
  cases h with
  | group hne ht h => exact ⟨_, _, _, rfl, rfl, hne, ht, h⟩

/-- A match of two patterns in a row. -/
theorem Matches.append {items' : List (Piece α)} : ∀ {items : List (Piece α)} {s : List α}
    {groups : List (List α)}, Matches (items ++ items') s groups →
      ∃ u v g g', s = u ++ v ∧ groups = g ++ g' ∧ Matches items u g ∧ Matches items' v g' := by
  intro items
  induction items with
  | nil =>
    intro s groups h
    exact ⟨[], s, [], groups, rfl, rfl, .nil, h⟩
  | cons item items ih =>
    intro s groups h
    cases h with
    | one hc h =>
      obtain ⟨u, v, g, g', rfl, rfl, hu, hv⟩ := ih h
      exact ⟨_ :: u, v, g, g', rfl, rfl, .one hc hu, hv⟩
    | @plus p t _ _ _ hne ht h =>
      obtain ⟨u, v, g, g', rfl, rfl, hu, hv⟩ := ih h
      exact ⟨t ++ u, v, g, g', (List.append_assoc ..).symm, rfl, .plus hne ht hu, hv⟩
    | @group p t _ _ _ hne ht h =>
      obtain ⟨u, v, g, g', rfl, rfl, hu, hv⟩ := ih h
      exact ⟨t ++ u, v, t :: g, g', (List.append_assoc ..).symm, rfl, .group hne ht hu, hv⟩
    | @lazy p t _ _ _ ht h =>
      obtain ⟨u, v, g, g', rfl, rfl, hu, hv⟩ := ih h
      exact ⟨t ++ u, v, g, g', (List.append_assoc ..).symm, rfl, .lazy ht hu, hv⟩

section
variable [BEq α] [LawfulBEq α]

/-- The pattern of one text. -/
def exactly (t : List α) : List (Piece α) := t.map fun c => .one (· == c)

theorem Matches.exactly : ∀ {t s : List α} {groups : List (List α)},
    Matches (exactly t) s groups → s = t := by
  intro t
  induction t with
  | nil =>
    intro s groups h
    cases h
    rfl
  | cons c t ih =>
    intro s groups h
    cases h with
    | one hc h => rw [ih h, eq_of_beq hc]

theorem matchHere_exactly (items : List (Piece α)) (t s : List α) :
    matchHere (Pattern.exactly t ++ items) (t ++ s) = matchHere items s := by
  induction t with
  | nil => rfl
  | cons c t ih =>
    have hc : (c == c) = true := beq_self_eq_true c
    simp only [Pattern.exactly, List.map_cons, List.cons_append, matchHere, hc, if_true]
    exact ih

theorem matchHere_text (t : List α) : matchHere (Pattern.exactly t) t = some [] := by
  have h := matchHere_exactly [] t []
  rw [List.append_nil, List.append_nil] at h
  exact h

end

/-! ## 4. Finding a match

The other direction: what the matcher finds on a text that is known.  A greedy run is right when it
cannot be longer, because its class ends there (`Stops`), and also when it could be longer but
nothing behind a longer run matches (`longest_unless`). -/

/-- A run stops where its class does, or where the text does. -/
def Stops (p : α → Bool) (s : List α) : Prop := ∀ c ∈ s.head?, p c = false

theorem longest_append {p : α → Bool} {k : List α → Option β} {s : List α} {b : β}
    (hnone : longest p k s = none) (hk : k s = some b) : ∀ {t : List α}, t ≠ [] →
      (∀ c ∈ t, p c = true) → longest p k (t ++ s) = some (t, b) := by
  intro t
  induction t with
  | nil =>
    intro hne _
    exact absurd rfl hne
  | cons c t ih =>
    intro _ ht
    have hc := ht c List.mem_cons_self
    rw [List.cons_append]
    unfold longest
    rw [if_pos hc]
    cases t with
    | nil => simp only [List.nil_append, hnone, hk, Option.map_some]
    | cons d t => simp only [ih (by simp) fun x hx => ht x (List.mem_cons_of_mem _ hx)]

theorem longest_stops {p : α → Bool} {k : List α → Option β} {s : List α} {b : β}
    (hs : Stops p s) (hk : k s = some b) : ∀ {t : List α}, t ≠ [] → (∀ c ∈ t, p c = true) →
      longest p k (t ++ s) = some (t, b) := by
  have hnone : longest p k s = none := by
    cases s with
    | nil => rfl
    | cons c s =>
      have hc : ¬ p c = true := by
        rw [hs c rfl]
        simp
      unfold longest
      rw [if_neg hc]
  intro t hne ht
  exact longest_append hnone hk hne ht

/-- A run that could be longer, if only the rest matched behind a longer one. -/
theorem longest_unless {p : α → Bool} {k : List α → Option β} {s : List α} {b : β}
    (hs : ∀ u v, s = u ++ v → u ≠ [] → k v = none) (hk : k s = some b) : ∀ {t : List α}, t ≠ [] →
      (∀ c ∈ t, p c = true) → longest p k (t ++ s) = some (t, b) := by
  have hnone : ∀ {s : List α}, (∀ u v, s = u ++ v → u ≠ [] → k v = none) →
      longest p k s = none := by
    intro s
    induction s with
    | nil =>
      intro _
      rfl
    | cons c s ih =>
      intro hs
      have hrest := ih fun u v huv hu => hs (c :: u) v (by rw [huv]; rfl) (by simp)
      have hk := hs [c] s rfl (by simp)
      unfold longest
      split
      · rw [hrest, hk]
        rfl
      · rfl
  intro t hne ht
  exact longest_append (hnone hs) hk hne ht

/-- A run that ends where its class does is taken whole, and the rest of the pattern goes on behind
it. -/
theorem matchHere_plus {p : α → Bool} {items : List (Piece α)} {t s : List α}
    {groups : List (List α)} (hne : t ≠ []) (ht : ∀ c ∈ t, p c = true) (hs : Stops p s)
    (h : matchHere items s = some groups) :
    matchHere (.plus p :: items) (t ++ s) = some groups := by
  unfold matchHere
  rw [longest_stops hs h hne ht]
  rfl

/-- The same for a run that is captured: it is the first of the groups. -/
theorem matchHere_group {p : α → Bool} {items : List (Piece α)} {t s : List α}
    {groups : List (List α)} (hne : t ≠ []) (ht : ∀ c ∈ t, p c = true) (hs : Stops p s)
    (h : matchHere items s = some groups) :
    matchHere (.group p :: items) (t ++ s) = some (t :: groups) := by
  unfold matchHere
  rw [longest_stops hs h hne ht]
  rfl

/-- The shortest run ends at the first place where the rest matches. -/
theorem matchHere_lazy {p : α → Bool} {items : List (Piece α)} {s : List α}
    {groups : List (List α)} (h : matchHere items s = some groups) : ∀ {t : List α},
      (∀ c ∈ t, p c = true) → (∀ u v, t = u ++ v → v ≠ [] → matchHere items (v ++ s) = none) →
        matchHere (.lazy p :: items) (t ++ s) = some groups := by
  intro t
  induction t with
  | nil =>
    intro _ _
    unfold matchHere
    cases s with
    | nil => exact h
    | cons c s =>
      rw [List.nil_append]
      unfold shortest
      rw [h]
  | cons c t ih =>
    intro ht hnot
    have hfail := hnot [] (c :: t) rfl (by simp)
    have hrest := ih (fun x hx => ht x (List.mem_cons_of_mem _ hx))
      fun u v huv hv => hnot (c :: u) v (by rw [huv]; rfl) hv
    unfold matchHere at hrest ⊢
    rw [List.cons_append] at hfail ⊢
    unfold shortest
    rw [hfail]
    simp only [ht c List.mem_cons_self, if_true]
    exact hrest

theorem find_of_matchHere {items : List (Piece α)} {s : List α} {groups : List (List α)}
    (h : matchHere items s = some groups) : find items s = some groups := by
  cases s with
  | nil => exact h
  | cons c s =>
    unfold find
    rw [h]

end Pattern
