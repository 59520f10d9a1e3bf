/-
# Words and marks

A text is read as words, which are runs of the characters of a class and as long as they can be, and
marks, which are the other characters but blanks.  Texts that do not meet inside a word are read one
after the other (`tokens_append`).

Section 2 is about what is written in such tokens.  Where everything written ends in an element of a
class, and has none of them before, a list of things written can be taken apart again
(`uniquelyDecodable_of_ended`).
-/
import Mathlib.InformationTheory.Coding.UniquelyDecodable

/-- A word, or a character that stands for itself. -/
inductive Token (α : Type)
  | word (t : List α)
  | mark (c : α)
deriving DecidableEq

namespace Token

variable {α : Type} (inWord blank : α → Bool)

/-! ## 1. Reading

A text is cut from the right: `cut` gives the word that the text begins with, if it begins inside
one, and the tokens behind it.  So two texts in a row are read as one only where the first ends in
a word and the second begins in one, and `tokens_append` asks that one of the two is not so. -/

/-- A word that is not empty comes before the tokens. -/
def flush : List α × List (Token α) → List (Token α)
  | ([], ts) => ts
  | (c :: t, ts) => word (c :: t) :: ts

/-- The word at the start of a text, and the tokens behind it. -/
def cut : List α → List α × List (Token α)
  | [] => ([], [])
  | c :: s =>
    if inWord c then (c :: (cut s).1, (cut s).2)
    else if blank c then ([], flush (cut s))
    else ([], mark c :: flush (cut s))

/-- The tokens of a text. -/
def tokens (s : List α) : List (Token α) := flush (cut inWord blank s)

variable {inWord blank}

/-- A text that does not start inside a word. -/
def Fresh (inWord : α → Bool) (s : List α) : Prop := ∀ c ∈ s.head?, inWord c = false

/-- A text that does not end inside one. -/
def Closed (inWord : α → Bool) (s : List α) : Prop := ∀ c ∈ s.getLast?, inWord c = false

instance (s : List α) : Decidable (Fresh inWord s) :=
  Option.decidableForallMem (p := fun c => inWord c = false) s.head?

instance (s : List α) : Decidable (Closed inWord s) :=
  Option.decidableForallMem (p := fun c => inWord c = false) s.getLast?

theorem Fresh.append {s : List α} (h : Fresh inWord s) (hne : s ≠ []) (t : List α) :
    Fresh inWord (s ++ t) := by
  obtain ⟨c, s, rfl⟩ := List.exists_cons_of_ne_nil hne
  exact h

theorem cut_fresh {s : List α} (h : Fresh inWord s) : (cut inWord blank s).1 = [] := by
  cases s with
  | nil => rfl
  | cons c s =>
    have hc : ¬ inWord c = true := by simp [h c rfl]
    unfold cut
    rw [if_neg hc]
    split <;> rfl

theorem flush_append (t : List α) (ts ts' : List (Token α)) :
    flush (t, ts ++ ts') = flush (t, ts) ++ ts' := by
  cases t <;> rfl

theorem cut_append {t : List α} (ht : Fresh inWord t) : ∀ s : List α,
    cut inWord blank (s ++ t)
      = ((cut inWord blank s).1, (cut inWord blank s).2 ++ tokens inWord blank t)
  | [] => by
    have hfst : (cut inWord blank t).1 = [] := cut_fresh ht
    have hpair : cut inWord blank t = ([], (cut inWord blank t).2) := Prod.ext hfst rfl
    rw [List.nil_append, tokens, hpair]
    rfl
  | c :: s => by
    rw [List.cons_append]
    unfold cut
    rw [cut_append ht s]
    split_ifs
    · rfl
    · rw [flush_append]
    · rw [flush_append]
      rfl

/-- Texts are read one after the other where the second does not start inside a word, whatever the
first one ends in. -/
theorem tokens_append {s t : List α} (ht : Fresh inWord t) :
    tokens inWord blank (s ++ t) = tokens inWord blank s ++ tokens inWord blank t := by
  unfold tokens
  rw [cut_append ht s, flush_append]
  rfl

/-- ...or where the first does not end in one. -/
theorem tokens_append_last {s t : List α} (hs : Closed inWord s) :
    tokens inWord blank (s ++ t) = tokens inWord blank s ++ tokens inWord blank t := by
  rcases List.eq_nil_or_concat s with rfl | ⟨s, c, rfl⟩
  · rfl
  have hc : ¬ inWord c = true := by simp [hs c (by simp)]
  have hfresh : ∀ u, Fresh inWord ([c] ++ u) := by
    rintro u _ ⟨⟩
    simpa using hc
  have hone : ∀ u, tokens inWord blank ([c] ++ u)
      = tokens inWord blank [c] ++ tokens inWord blank u := by
    intro u
    have hread : ∀ u, tokens inWord blank ([c] ++ u)
        = (if blank c then [] else [mark c]) ++ tokens inWord blank u := by
      intro u
      rw [List.singleton_append, tokens]
      unfold cut
      rw [if_neg hc]
      split <;> rfl
    have hnil := hread []
    rw [List.append_nil] at hnil
    rw [hread, hnil, List.append_assoc]
    rfl
  rw [List.concat_eq_append, List.append_assoc, tokens_append (hfresh t), hone,
    tokens_append (t := [c]) (by simpa using hfresh []), List.append_assoc]

/-- A word is read as one token, when it is not empty. -/
theorem tokens_word {t : List α} (hne : t ≠ []) (ht : ∀ c ∈ t, inWord c = true) :
    tokens inWord blank t = [word t] := by
  have hcut : cut inWord blank t = (t, []) := by
    clear hne
    induction t with
    | nil => rfl
    | cons c t ih =>
      unfold cut
      rw [if_pos (ht c List.mem_cons_self), ih fun x hx => ht x (List.mem_cons_of_mem _ hx)]
  obtain ⟨c, t, rfl⟩ := List.exists_cons_of_ne_nil hne
  rw [tokens, hcut]
  rfl

/-- Blanks are not read. -/
theorem tokens_blanks {t : List α} (ht : ∀ c ∈ t, inWord c = false ∧ blank c = true) :
    tokens inWord blank t = [] := by
  induction t with
  | nil => rfl
  | cons c t ih =>
    obtain ⟨hword, hblank⟩ := ht c List.mem_cons_self
    have hrest := ih fun x hx => ht x (List.mem_cons_of_mem _ hx)
    have hc : ¬ inWord c = true := by simp [hword]
    rw [tokens] at hrest ⊢
    unfold cut
    rw [if_neg hc, if_pos hblank, hrest]
    rfl

end Token

/-! ## 2. Things written in a row

Reading tokens says what a text consists of; it does not say what was meant.  Where everything that
is written ends in a mark that occurs nowhere else in it, as a statement ends in its `;`, the end
of the first thing is the first such mark, and what is behind it is the rest. -/

section
variable {α : Type}

/-- It ends in an element of a class, and has none of them before. -/
def Ended (isEnd : α → Bool) (w : List α) : Prop :=
  ∃ body c, w = body ++ [c] ∧ (∀ x ∈ body, isEnd x = false) ∧ isEnd c = true

/-- The first of two things in a row is determined, and so is the rest: each of `w` and `w'`
reaches up to the first end mark. -/
theorem Ended.append_inj {isEnd : α → Bool} {w w' r r' : List α} (hw : Ended isEnd w)
    (hw' : Ended isEnd w') (h : w ++ r = w' ++ r') : w = w' ∧ r = r' := by
  obtain ⟨body, c, rfl, hbody, hc⟩ := hw
  obtain ⟨body', c', rfl, hbody', hc'⟩ := hw'
  have htake : ∀ {b : List α} {e : α} {s : List α}, (∀ x ∈ b, isEnd x = false) → isEnd e = true →
      (b ++ [e] ++ s).takeWhile (fun x => !isEnd x) = b := by
    intro b e s hb he
    rw [List.append_assoc, List.takeWhile_append_of_pos (by simpa using hb)]
    simp [he]
  have hsame : body = body' := by rw [← htake hbody hc, h, htake hbody' hc']
  subst hsame
  have hrest := List.append_cancel_left (List.append_assoc body [c] r ▸
    List.append_assoc body [c'] r' ▸ h)
  obtain ⟨rfl, rfl⟩ := List.cons.inj hrest
  exact ⟨rfl, rfl⟩

/-- Things that end so can be taken apart: a list of them is determined by the tokens in a row. -/
theorem uniquelyDecodable_of_ended {isEnd : α → Bool} {S : Set (List α)}
    (hS : ∀ w ∈ S, Ended isEnd w) : InformationTheory.UniquelyDecodable S := by
  have hne : ∀ {w r : List α}, w ∈ S → w ++ r ≠ [] := by
    intro w r hw hnil
    obtain ⟨body, c, rfl, -, -⟩ := hS w hw
    simp at hnil
  intro L₁
  induction L₁ with
  | nil =>
    intro L₂ _ h₂ h
    cases L₂ with
    | nil => rfl
    | cons w L₂ => exact absurd h.symm (hne (h₂ w List.mem_cons_self))
  | cons w L₁ ih =>
    intro L₂ h₁ h₂ h
    cases L₂ with
    | nil => exact absurd h (hne (h₁ w List.mem_cons_self))
    | cons w' L₂ =>
      obtain ⟨rfl, hrest⟩ := (hS w (h₁ w List.mem_cons_self)).append_inj
        (hS w' (h₂ w' List.mem_cons_self)) h
      rw [ih L₂ (fun x hx => h₁ x (List.mem_cons_of_mem _ hx))
        (fun x hx => h₂ x (List.mem_cons_of_mem _ hx)) hrest]

end
