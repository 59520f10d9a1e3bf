/-
# The meaning of a configuration file is its tree

A parse of a file is a run of the handlers on the tree that is written in the file.  `Runs` is that
run: it knows nothing of texts, buffers and refills, but only of what the handlers see of the
world, which reading does not change (`Sys.Unseen`) and on which alone their answers depend
(`Table.Sees`).

`confParse_iff_runs`: a file is accepted, with this outcome, just when it is written for a tree,
its items are shorter than the buffer, and the tree runs with this outcome.  So layout, quoting and
escapes carry no meaning, and a printed tree is accepted just when it runs (`confParse_print_iff`).
-/
import Capwap.Conf.Syntax
import Capwap.Conf.Length
import Capwap.Conf.Resources
import Capwap.Conf.Http

namespace Capwap

/-! ## 1. The limit

The grammar of texts knows nothing of the buffer.  The tokenizer gives up on an item that does not
fit in one, so a file is read as the grammar says up to the first such item, and wholly if there is
none (`¬ Late text`). -/

/-- A call that returns a code under a limit returns it without one. -/
theorem lex_of_limit {limit : Option Nat} {text rest : List UInt8} {rc : Rc}
    {ws : List (List UInt8)} (h : lex limit text = (⟨.ok rc, ws⟩, rest)) :
    lex none text = (⟨.ok rc, ws⟩, rest) := by
  rcases Loop.feed_cases (Lexer.step limit) Lexer.eof text .start with
    ⟨s, hadv, hfeed⟩ | ⟨pre, c, post, s, o, rfl, hadv, hdone, hfeed⟩
  · rw [lex, hfeed] at h
    have hrun : Loop.feed (Lexer.step none) Lexer.eof .start (text ++ []) = (s.eof, []) :=
      Loop.feed_advance [] (advance_limit hadv)
    rw [List.append_nil] at hrun
    rw [lex, hrun]
    exact h
  · rw [lex, hfeed] at h
    have hoff : limit ≠ some s.since := by
      intro he
      rw [Lexer.step_at he] at hdone
      cases hdone
      cases (Prod.mk.inj h).1
    rw [Lexer.step_off hoff, ← Lexer.step_none] at hdone
    rw [lex, Loop.feed_advance _ (advance_limit hadv), Loop.feed_done hdone]
    exact h

/-- Where no report is due, the limit makes no difference to a call, and none is due after it. -/
theorem lex_late_iff {text rest : List UInt8} {rc : Rc} {ws : List (List UInt8)}
    (h : lex none text = (⟨.ok rc, ws⟩, rest)) :
    ¬ Late text ↔ lex (some confBuffer) text = (⟨.ok rc, ws⟩, rest) ∧ ¬ Late rest := by
  rcases Loop.feed_cases (Lexer.step (some confBuffer)) Lexer.eof text .start with
    ⟨s, hadv, hfeed⟩ | ⟨pre, c, post, s, o, rfl, hadv, hdone, hfeed⟩
  · have hrun : Loop.feed (Lexer.step none) Lexer.eof .start (text ++ []) = (s.eof, []) :=
      Loop.feed_advance [] (advance_limit hadv)
    rw [List.append_nil] at hrun
    rw [lex, hrun] at h
    obtain ⟨-, rfl⟩ := Prod.mk.inj h
    have hlate : ¬ Late text := by
      rintro ⟨p, c, q, t, heq, ht, hsince⟩
      exact not_late_of_advance hadv p c q heq t ht hsince
    have hnil : ¬ Late [] := by
      rintro ⟨p, c, q, t, heq, -⟩
      cases p <;> cases heq
    refine iff_of_true hlate ⟨?_, hnil⟩
    rw [lex, hfeed]
    exact h
  · by_cases hlimit : s.since = confBuffer
    · refine iff_of_false (not_not.mpr ⟨pre, c, post, s, rfl, ?_, hlimit⟩) ?_
      · exact standFrom_of_advance (advance_limit hadv)
      · rintro ⟨hlex, -⟩
        rw [Lexer.step_at (by rw [hlimit])] at hdone
        rw [lex, hfeed] at hlex
        cases hdone
        cases (Prod.mk.inj hlex).1
    · have hoff : some confBuffer ≠ some s.since := fun he => hlimit (Option.some.inj he).symm
      have hread := hdone
      rw [Lexer.step_off hoff] at hread
      have hrun : lex none (pre ++ c :: post) = (o, post) := by
        rw [lex, Loop.feed_advance _ (advance_limit hadv),
          Loop.feed_done ((Lexer.step_none s c).trans hread)]
      rw [hrun] at h
      obtain ⟨rfl, rfl⟩ := Prod.mk.inj h
      have hlex : lex (some confBuffer) (pre ++ c :: post) = (⟨.ok rc, ws⟩, post) := hfeed
      rw [late_append hadv hlimit hread, hlex]
      simp

/-! ## 2. What the handlers see

A world has the handlers' records in it, and the pool, the descriptors and the logs as well.  `see`
picks what handlers go by.  Two conditions make a run on the tree possible: what handlers do
depends on what they see, and what the parser does in between is not seen. -/

section
variable {σ τ : Type}

/-- Two handlers at work that look alike, and go on alike in worlds that look alike.  Continuations
are compared on the same code, view and words. -/
def Act.Alike (see : σ → τ) : Act σ → Act σ → Prop
  | .ret rv view w, .ret rv' view' w' => rv = rv' ∧ view = view' ∧ see w = see w'
  | .parse filename view w k, .parse filename' view' w' k' =>
    filename = filename' ∧ view = view' ∧ see w = see w' ∧
      ∀ rv v args w₁ w₁', see w₁ = see w₁' → (k rv v args w₁).Alike see (k' rv v args w₁')
  | .ret _ _ _, .parse _ _ _ _ => False
  | .parse _ _ _ _, .ret _ _ _ => False

/-- What handlers do depends on what they see of the world. -/
structure Table.Sees (S : Sys σ) (T : Table σ) (see : σ → τ) : Prop where
  load : ∀ a w w', see w = see w' → S.load a w = S.load a w'
  set : ∀ m cmd, (m, cmd) ∈ T.commands → ∀ view args p w w', see w = see w' →
    (cmd.set view args p w).Alike see (cmd.set view args p w')

/-- Reading a file changes nothing that handlers see. -/
structure Sys.Unseen (S : Sys σ) (see : σ → τ) : Prop where
  openFile : ∀ name w, see (S.openFile name w).2 = see w
  fdInfo : ∀ fd w, see (S.fdInfo fd w).2 = see w
  alloc : ∀ n w, see (S.alloc n w).2 = see w
  free : ∀ p w, see (S.free p w) = see w
  pread : ∀ fd n off w, see (S.pread fd n off w).2 = see w
  closeFile : ∀ fd w, see (S.closeFile fd w).2 = see w
  clearArgs : ∀ w, see (S.clearArgs w) = see w
  arrayPush : ∀ w, see (S.arrayPush w).2 = see w
  pnalloc : ∀ n w, see (S.pnalloc n w).2 = see w

/-- The run of the handlers on a tree, which starts where they see the first index and ends where
they see the last.  A block is one step of its handler to ask for the parse, the run of its body in
the view that it asks for, and one step to end. -/
inductive Runs (S : Sys σ) (T : Table σ) (see : σ → τ) : View → τ → List Item → τ → Prop
  | nil {view : View} {x : τ} : Runs S T see view x [] x
  | simple {view : View} {w w' : σ} {y : τ} {items : List Item} {words : List (List UInt8)}
      {m : Module σ} {cmd : Command σ} (hfits : Fits T view words .ok m cmd)
      (hset : cmd.set view (words.map Word.of) (confPointer S view m cmd w) w = .ret .ok view w')
      (hrest : Runs S T see view (see w') items y) :
      Runs S T see view (see w) (.simple words :: items) y
  | block {view view' : View} {w w' w₂ w₃ : σ} {y : τ} {items body : List Item}
      {words : List (List UInt8)} {m : Module σ} {cmd : Command σ}
      {k : Rv → View → List Word → σ → Act σ} (hfits : Fits T view words .blockStart m cmd)
      (hset : cmd.set view (words.map Word.of) (confPointer S view m cmd w) w
        = .parse none view' w' k)
      (hbody : Runs S T see view' (see w') body (see w₂))
      (hk : k .ok view' [] w₂ = .ret .ok view w₃)
      (hrest : Runs S T see view (see w₃) items y) :
      Runs S T see view (see w) (.block words body :: items) y

variable {S : Sys σ} {T : Table σ} {see : σ → τ} {fd : Int} {content : List UInt8}

theorem Sys.Unseen.readToken (h : S.Unseen see) (conf : ConfFile) (w : σ) :
    see (Capwap.readToken S conf w).world = see w := by
  have hkeeps : S.Keeps fun w' => see w' = see w := {
    clearArgs := fun w' hw => (h.clearArgs w').trans hw
    arrayPush := fun w' hw => (h.arrayPush w').trans hw
    pnalloc := fun n w' hw => (h.pnalloc n w').trans hw
    pread := fun fd n off w' hw => (h.pread fd n off w').trans hw }
  exact readToken_keeps hkeeps conf rfl

theorem Table.Sees.confPointer (h : T.Sees S see) {w w' : σ} (hw : see w = see w') (view : View)
    (m : Module σ) (cmd : Command σ) :
    Capwap.confPointer S view m cmd w = Capwap.confPointer S view m cmd w' := by
  unfold Capwap.confPointer
  simp only [h.load _ w w' hw]

theorem Act.Alike.ret {rv : Rv} {view : View} {w : σ} {a : Act σ}
    (h : (Act.ret rv view w).Alike see a) : ∃ w', a = .ret rv view w' ∧ see w' = see w := by
  cases a with
  | ret rv' view' w' =>
    obtain ⟨rfl, rfl, hw⟩ := h
    exact ⟨w', rfl, hw.symm⟩
  | parse filename view' w' k => exact absurd h id

theorem Act.Alike.parse {filename : Option (List UInt8)} {view : View} {w : σ}
    {k : Rv → View → List Word → σ → Act σ} {a : Act σ}
    (h : (Act.parse filename view w k).Alike see a) :
    ∃ w' k', a = .parse filename view w' k' ∧ see w' = see w ∧
      ∀ rv v args w₁ w₁', see w₁ = see w₁' → (k rv v args w₁).Alike see (k' rv v args w₁') := by
  cases a with
  | ret rv' view' w' => exact absurd h id
  | parse filename' view' w' k' =>
    obtain ⟨rfl, rfl, hw, hk⟩ := h
    exact ⟨w', k', rfl, hw.symm, hk⟩

/-! ## 3. A call on a line

A call on a text returns words and a code just when a line of these comes first in the text.  For a
text in memory this is all; for a file there is the limit, and the text is that still to come. -/

/-- The other direction of `readToken_ok`. -/
theorem readToken_of_lex (hS : S.Allocates) {src : Source} {conf : ConfFile}
    {text rest : List UInt8} (h : conf.Holds S src text) (w : σ) {rc : Rc}
    {ws : List (List UInt8)} (hlex : lex src.limit text = (⟨.ok rc, ws⟩, rest)) :
    (Capwap.readToken S conf w).rc = .ok rc ∧
      (Capwap.readToken S conf w).args = ws.map Word.of ∧
      (Capwap.readToken S conf w).conf.Holds S src rest := by
  have hsame := readToken_refines hS h w
  rw [hlex] at hsame
  exact ⟨(hsame.rc.ok_iff rc).mpr rfl, hsame.args, (hsame.conf (by simp)).1⟩

theorem Word.of_injective : Function.Injective Word.of := by
  intro s t h
  unfold Word.of at h
  exact List.append_cancel_right (Word.mk.inj h).2

/-- **What the tokenizer accepts**: for a text in memory, it reads these words just when a line of
them comes first. -/
theorem readToken_param_iff (hS : S.Allocates) (text : List UInt8) (w : σ) (rc : Rc)
    (ws : List (List UInt8)) :
    ((Capwap.readToken S (.param text) w).rc = .ok rc ∧
        (Capwap.readToken S (.param text) w).args = ws.map Word.of) ↔
      ∃ t rest, text = t ++ rest ∧ Line (.gap false) ws rc t ∧ (rc = .fileDone → rest = []) := by
  have hholds := ConfFile.param_holds S text
  constructor
  · rintro ⟨hrc, hargs⟩
    obtain ⟨words, rest, hlex, hwords, -⟩ := readToken_ok hS hholds hrc
    obtain rfl : words = ws :=
      List.map_injective_iff.mpr Word.of_injective (hwords.symm.trans hargs)
    obtain ⟨t, htext, hline, hrest⟩ := lex_iff.mp hlex
    exact ⟨t, rest, htext, hline, hrest⟩
  · rintro ⟨t, rest, rfl, hline, hrest⟩
    obtain ⟨hrc, hargs, -⟩ := readToken_of_lex hS hholds w (hline.lex rest hrest)
    exact ⟨hrc, hargs⟩

/-- The lines of a file are read under the limit. -/
theorem readToken_line (hS : S.Allocates) {conf : ConfFile} {t rest : List UInt8}
    (h : conf.Holds S (Source.file fd content) (t ++ rest)) (w : σ) {rc : Rc}
    {ws : List (List UInt8)} (hline : Line (.gap false) ws rc t)
    (hrest : rc = .fileDone → rest = [])
    (hlate : ¬ Late (t ++ rest)) :
    (Capwap.readToken S conf w).rc = .ok rc ∧
      (Capwap.readToken S conf w).args = ws.map Word.of ∧
      (Capwap.readToken S conf w).conf.Holds S (Source.file fd content) rest ∧ ¬ Late rest := by
  obtain ⟨hlex, hlate'⟩ := (lex_late_iff (hline.lex rest hrest)).mp hlate
  obtain ⟨hrc, hargs, hholds⟩ := readToken_of_lex hS h w hlex
  exact ⟨hrc, hargs, hholds, hlate'⟩

/-- And what is read are lines. -/
theorem line_of_readToken (hS : S.Allocates) {conf : ConfFile} {text : List UInt8}
    (h : conf.Holds S (Source.file fd content) text) {w : σ} {rc : Rc}
    (hrc : (Capwap.readToken S conf w).rc = .ok rc) :
    ∃ t ws rest, text = t ++ rest ∧ Line (.gap false) ws rc t ∧ (rc = .fileDone → rest = []) ∧
      (Capwap.readToken S conf w).args = ws.map Word.of ∧
      (Capwap.readToken S conf w).conf.Holds S (Source.file fd content) rest ∧
      (¬ Late rest → ¬ Late text) := by
  obtain ⟨ws, rest, hlex, hargs, hholds⟩ := readToken_ok hS h hrc
  have hnone := lex_of_limit hlex
  obtain ⟨t, htext, hline, hrest⟩ := lex_iff.mp hnone
  exact ⟨t, ws, rest, htext, hline, hrest, hargs, hholds,
    fun hlate => (lex_late_iff hnone).mpr ⟨hlex, hlate⟩⟩

/-! ## 4. The parser and the run

`Items`, from the grammar of the parser, is a derivation in terms of calls on a file.  It is turned
into a run on a tree with its text by induction on the derivation, and a run with a text is turned
into such a derivation by induction on the run. -/

/-- What the parser reads is written for a tree, and the tree runs.  The induction is on the
derivation. -/
theorem Items.runs (hS : S.Allocates) (hunseen : S.Unseen see) {view : View}
    {conf conf' : ConfFile} {w w' : σ} {items : List Item} {rc : Rc}
    (h : Items S T view conf w items rc conf' w') :
    ∀ {text : List UInt8}, conf.Holds S (Source.file fd content) text →
      Runs S T see view (see w) items (see w') ∧
      ∃ t rest, text = t ++ rest ∧ Written rc items t ∧ (rc = .fileDone → rest = []) ∧
        conf'.Holds S (Source.file fd content) rest ∧ (¬ Late rest → ¬ Late text) := by
  induction h with
  | @stop view conf w rc hrc hend =>
    intro text hholds
    obtain ⟨t, ws, rest, rfl, hline, hrest, -, hh, hlate⟩ := line_of_readToken hS hholds hrc
    rw [hunseen.readToken]
    have hnil : ws = [] := by
      rcases lex_ok (hline.lex rest hrest) with ⟨-, hw, -⟩ | ⟨-, ⟨-, hw⟩ | ⟨hne, -⟩⟩
      · exact hw
      · exact hw
      · rcases hend with rfl | rfl <;> simp at hne
    subst hnil
    exact ⟨.nil, t, rest, rfl, .stop hend hline, hrest, hh, hlate⟩
  | @simple view conf conf' w w₂ w' rc items words m cmd hrc hwords hfits hset _ ih =>
    intro text hholds
    obtain ⟨t, ws, rest, rfl, hline, -, hargs, hh, hlate⟩ := line_of_readToken hS hholds hrc
    obtain rfl : words = ws :=
      List.map_injective_iff.mpr Word.of_injective (hwords.symm.trans hargs)
    obtain ⟨hruns, u, rest', rfl, hwritten, hrest', hh', hlate'⟩ := ih hh
    refine ⟨?_, t ++ u, rest', by simp, .simple hline hwritten, hrest', hh', hlate ∘ hlate'⟩
    rw [← hunseen.readToken conf w]
    exact .simple hfits hset hruns
  | @block view view' conf conf₁ conf' w w₂ w₃ w₄ w' rc items body words m cmd k hrc hwords hfits
      hset _ hk _ ihbody ih =>
    intro text hholds
    obtain ⟨t, ws, rest, rfl, hline, -, hargs, hh, hlate⟩ := line_of_readToken hS hholds hrc
    obtain rfl : words = ws :=
      List.map_injective_iff.mpr Word.of_injective (hwords.symm.trans hargs)
    obtain ⟨hbody, b, rest₁, rfl, hb, -, hh₁, hlate₁⟩ := ihbody hh
    obtain ⟨hruns, u, rest', rfl, hwritten, hrest', hh', hlate'⟩ := ih hh₁
    refine ⟨?_, t ++ (b ++ u), rest', by simp, .block hline hb hwritten, hrest', hh',
      hlate ∘ hlate₁ ∘ hlate'⟩
    rw [← hunseen.readToken conf w]
    exact .block hfits hset hbody hk hruns

/-- The view in which a block of a regular table is read has no custom handler. -/
theorem Fits.view_block (hT : T.Regular) {view view' : View} {words : List (List UInt8)}
    {m : Module σ} {cmd : Command σ} (hfits : Fits T view words .blockStart m cmd)
    {args : List Word} {p : Nat} {w w' : σ} {k : Rv → View → List Word → σ → Act σ}
    (hview : view.handler = 0) (hset : cmd.set view args p w = .parse none view' w' k) :
    view'.handler = 0 := by
  obtain ⟨name, tail, -, hfirst⟩ := hfits.first
  obtain ⟨v, w₂, k', hset', hv, -⟩ :=
    hT.block m cmd hfirst.mem (hfits.terminator.mpr rfl) view args p w hview
  obtain ⟨-, rfl, -⟩ := Act.parse.inj (hset.symm.trans hset')
  exact hv

/-- A tree that runs is read from any text that is written for it, in any world that looks like
its own. -/
theorem Runs.items (hS : S.Allocates) (hT : T.Regular) (hunseen : S.Unseen see)
    (hsees : T.Sees S see) {view : View} {x y : τ} {items : List Item}
    (h : Runs S T see view x items y) :
    ∀ {rc : Rc} {t rest : List UInt8} {conf : ConfFile} {w : σ}, Written rc items t →
      conf.Holds S (Source.file fd content) (t ++ rest) → see w = x → ¬ Late (t ++ rest) →
      (rc = .fileDone → rest = []) → view.handler = 0 →
        ∃ conf' w', Items S T view conf w items rc conf' w' ∧ see w' = y ∧
          conf'.Holds S (Source.file fd content) rest ∧ ¬ Late rest := by
  induction h with
  | @nil view x =>
    intro rc t rest conf w hwritten hholds hw hlate hrest _
    cases hwritten with
    | stop hend hline =>
      obtain ⟨hrc, -, hh, hlate'⟩ := readToken_line hS hholds w hline hrest hlate
      exact ⟨_, _, .stop hrc hend, (hunseen.readToken conf w).trans hw, hh, hlate'⟩
  | @simple view w₁ w₁' y items words m cmd hfits hset _ ih =>
    intro rc t rest conf w hwritten hholds hw hlate hrest hview
    cases hwritten with
    | @simple _ _ _ t u hline hu =>
      rw [List.append_assoc] at hholds hlate
      obtain ⟨hrc, hargs, hh, hlate'⟩ := readToken_line hS hholds w hline (by simp) hlate
      obtain ⟨name, tail, -, hfirst⟩ := hfits.first
      have hsee : see w₁ = see (Capwap.readToken S conf w).world :=
        hw.symm.trans (hunseen.readToken conf w).symm
      have halike := hsees.set m cmd hfirst.mem view (words.map Word.of)
        (Capwap.confPointer S view m cmd w₁) _ _ hsee
      rw [hset, hsees.confPointer hsee] at halike
      obtain ⟨w₂, hset', hw₂⟩ := halike.ret
      obtain ⟨conf', w', hitems, hw', hh', hlate''⟩ := ih hu hh hw₂ hlate' hrest hview
      exact ⟨conf', w', .simple hrc hargs hfits hset' hitems, hw', hh', hlate''⟩
  | @block view view' w₁ w₁' w₂ w₃ y items body words m cmd k hfits hset _ hk _ ihbody ih =>
    intro rc t rest conf w hwritten hholds hw hlate hrest hview
    cases hwritten with
    | @block _ _ _ _ t b u hline hb hu =>
      rw [List.append_assoc, List.append_assoc] at hholds hlate
      obtain ⟨hrc, hargs, hh, hlate'⟩ := readToken_line hS hholds w hline (by simp) hlate
      obtain ⟨name, tail, -, hfirst⟩ := hfits.first
      have hsee : see w₁ = see (Capwap.readToken S conf w).world :=
        hw.symm.trans (hunseen.readToken conf w).symm
      have halike := hsees.set m cmd hfirst.mem view (words.map Word.of)
        (Capwap.confPointer S view m cmd w₁) _ _ hsee
      rw [hset, hsees.confPointer hsee] at halike
      obtain ⟨w₄, k', hset', hw₄, hk'⟩ := halike.parse
      have hview' := hfits.view_block hT hview hset
      obtain ⟨conf₁, w₅, hbody, hw₅, hh₁, hlate₁⟩ :=
        ihbody hb hh hw₄ hlate' (by simp) hview'
      have hafter := hk' .ok view' [] w₂ w₅ hw₅.symm
      rw [hk] at hafter
      obtain ⟨w₆, hret, hw₆⟩ := hafter.ret
      obtain ⟨conf', w', hitems, hw', hh', hlate''⟩ := ih hu hh₁ hw₆ hlate₁ hrest hview
      exact ⟨conf', w', .block hrc hargs hfits hset' hbody hret hitems, hw', hh', hlate''⟩

/-! ## 5. A file -/

/-- What the handlers see after a file is what they see after its loop. -/
theorem confParse_file_see (hopen : S.Opens fd content) (hunseen : S.Unseen see) (cf : Cf σ)
    (name : List UInt8) (n : Nat) {cf' : Cf σ}
    (hrun : Loop.run (parseStep S T (confParse S T n) .file) (content.length + 1)
      (cf.fileStart S fd content name) = some (.ok (), cf')) :
    see (confParse S T (n + 1) (some name) cf).2.world = see cf'.world := by
  have hholds := ConfFile.opened_holds (S := S) hopen.serves
  have h1 := hopen.openFile name cf.world
  have h2 := hopen.fdInfo (S.openFile name cf.world).2
  have h3 := hopen.alloc confBuffer (S.fdInfo fd (S.openFile name cf.world).2).2
  unfold Cf.fileStart Sys.afterOpen at hrun
  simp only [confParse, h1, h2, if_neg hopen.valid]
  generalize S.alloc confBuffer (S.fdInfo fd (S.openFile name cf.world).2).2 = x at h3 hrun ⊢
  obtain ⟨ans, w⟩ := x
  cases ans with
  | none => simp at h3
  | some buf =>
    have hunread : ((some (ConfFile.opened fd content.length)).map ConfFile.unread).getD 0 + 1
        = content.length + 1 := by
      rw [Option.map_some, Option.getD_some, ← hholds.length_eq]
    simp only [parseLoop, hunread, hrun, closeConf]
    have hclose := hunseen.closeFile fd (S.free buf cf'.world)
    rw [hunseen.free] at hclose
    generalize S.closeFile fd (S.free buf cf'.world) = y at hclose ⊢
    obtain ⟨b, w'⟩ := y
    cases b <;> exact hclose

/-- A file that is accepted is written for a tree that runs, and no report is due. -/
theorem confParse_runs (hS : S.Allocates) (hopen : S.Opens fd content) (hT : T.Regular)
    (hunseen : S.Unseen see) {cf : Cf σ} (hview : cf.view.handler = 0) (name : List UInt8) {n : Nat}
    (hok : (confParse S T (n + 1) (some name) cf).1 = .ok ()) :
    ∃ items, Written .fileDone items content ∧ ¬ Late content ∧
      Runs S T see cf.view (see cf.world) items
        (see (confParse S T (n + 1) (some name) cf).2.world) := by
  have hholds := ConfFile.opened_holds (S := S) hopen.serves
  have hfd : (Source.file fd content).fd ≠ invalidFile := hopen.valid
  have hstart : see (S.afterOpen fd name cf.world) = see cf.world := by
    unfold Sys.afterOpen
    rw [hunseen.alloc, hunseen.fdInfo, hunseen.openFile]
  obtain ⟨cf', hrun⟩ := (confParse_file_iff hopen cf name n).mp hok
  rw [confParse_file_see hopen hunseen cf name n hrun, ← hstart]
  obtain ⟨items, conf', rest, hitems, -⟩ := loop_sound hS hT
    (confParse_sound hS hT hfd n) (show ParseType.file ≠ .param by simp) _
    (cf.fileStart S fd content name) rfl hholds hview hrun
  obtain ⟨hruns, t, rest', hcontent, hwritten, hrest', -, hlate⟩ := hitems.runs hS hunseen hholds
  obtain rfl := hrest' rfl
  rw [List.append_nil] at hcontent
  subst hcontent
  have hnil : ¬ Late [] := by
    rintro ⟨p, c, q, t, heq, -⟩
    cases p <;> cases heq
  exact ⟨items, hwritten, hlate hnil, hruns⟩

/-- A file that is written for a tree that runs is accepted when no report is due. -/
theorem Runs.confParse (hS : S.Allocates) (hopen : S.Opens fd content) (hT : T.Regular)
    (hunseen : S.Unseen see) (hsees : T.Sees S see) {cf : Cf σ} (hview : cf.view.handler = 0)
    (name : List UInt8) {n : Nat} (hn : content.length ≤ n) {y : τ} {items : List Item}
    (hruns : Runs S T see cf.view (see cf.world) items y)
    (hwritten : Written .fileDone items content) (hlate : ¬ Late content) :
    (confParse S T (n + 1) (some name) cf).1 = .ok () ∧
      see (confParse S T (n + 1) (some name) cf).2.world = y := by
  have hholds := ConfFile.opened_holds (S := S) hopen.serves
  have hfd : (Source.file fd content).fd ≠ invalidFile := hopen.valid
  have hstart : see (S.afterOpen fd name cf.world) = see cf.world := by
    unfold Sys.afterOpen
    rw [hunseen.alloc, hunseen.fdInfo, hunseen.openFile]
  have hall : (ConfFile.opened fd content.length).Holds S (Source.file fd content)
      (content ++ []) := by
    rw [List.append_nil]
    exact hholds
  obtain ⟨conf', w', hitems, hw', -⟩ := hruns.items hS hT hunseen hsees hwritten hall hstart
    (by rw [List.append_nil]; exact hlate) (fun _ => rfl) hview
  obtain ⟨hrun, -⟩ := hitems.loop hS hT hfd .file n (content.length + 1) cf.args hholds hview
    rfl (by simp) (by omega) (by omega)
  refine ⟨(confParse_file_iff hopen cf name n).mpr ⟨_, hrun⟩, ?_⟩
  rw [confParse_file_see hopen hunseen cf name n hrun]
  exact hw'

/-- **A file means its tree**: it is accepted, and what the handlers see in the end is `y`, just
when it is written for a tree that runs so, and no report is due. -/
theorem confParse_iff_runs (hS : S.Allocates) (hopen : S.Opens fd content) (hT : T.Regular)
    (hunseen : S.Unseen see) (hsees : T.Sees S see) {cf : Cf σ} (hview : cf.view.handler = 0)
    (name : List UInt8) {n : Nat} (hn : content.length < n) (y : τ) :
    ((confParse S T n (some name) cf).1 = .ok () ∧
        see (confParse S T n (some name) cf).2.world = y) ↔
      ∃ items, Written .fileDone items content ∧ ¬ Late content ∧
        Runs S T see cf.view (see cf.world) items y := by
  obtain ⟨n, rfl⟩ : ∃ d, n = d + 1 := ⟨n - 1, by omega⟩
  constructor
  · rintro ⟨hok, rfl⟩
    exact confParse_runs hS hopen hT hunseen hview name hok
  · rintro ⟨items, hwritten, hlate, hruns⟩
    exact hruns.confParse hS hopen hT hunseen hsees hview name (by omega) hwritten hlate

end

/-! ## 6. Printed files

In a printed file an item is a word between its quotes, with what separates it from the one before.
The report is due when such an item reaches the size of the buffer, so it is enough to look at the
lengths of the words, with their escapes. -/

/-- No report is due in these bytes, from a state on. -/
def Calm (s : Lexer) (xs : List UInt8) : Prop :=
  ∀ pre c post t, xs = pre ++ c :: post → standFrom s pre = some t → t.since ≠ confBuffer

theorem calm_start_iff (text : List UInt8) : Calm .start text ↔ ¬ Late text := by
  constructor
  · rintro h ⟨pre, c, post, t, heq, ht, hsince⟩
    exact h pre c post t heq ht hsince
  · intro h pre c post t heq ht hsince
    exact h ⟨pre, c, post, t, heq, ht, hsince⟩

theorem calm_nil (s : Lexer) : Calm s [] := by
  intro pre c post t heq
  cases pre <;> cases heq

theorem calm_cons {s s' : Lexer} {c : UInt8} {xs : List UInt8} (h : s.scan c = some s') :
    Calm s (c :: xs) ↔ s.since ≠ confBuffer ∧ Calm s' xs := by
  constructor
  · intro hcalm
    refine ⟨hcalm [] c xs s rfl rfl, ?_⟩
    intro pre d post t heq ht
    refine hcalm (c :: pre) d post t (congrArg (c :: ·) heq) ?_
    rw [standFrom_cons, h]
    exact ht
  · rintro ⟨hs, hcalm⟩ pre d post t heq ht
    cases pre with
    | nil =>
      obtain rfl := Option.some.inj ht
      exact hs
    | cons c' pre =>
      obtain ⟨rfl, hxs⟩ := List.cons.inj heq
      rw [standFrom_cons, h] at ht
      exact hcalm pre d post t hxs ht

theorem calm_append {xs ys : List UInt8} : ∀ {s s' : Lexer}, standFrom s xs = some s' →
    (Calm s (xs ++ ys) ↔ Calm s xs ∧ Calm s' ys) := by
  induction xs with
  | nil =>
    intro s s' h
    obtain rfl := Option.some.inj h
    simp [calm_nil]
  | cons c xs ih =>
    intro s s' h
    rw [standFrom_cons] at h
    obtain ⟨t, ht, h⟩ := Option.bind_eq_some_iff.mp h
    rw [List.cons_append, calm_cons ht, calm_cons ht, ih h, and_assoc]

/-- `since` counts bytes. -/
theorem standFrom_since_le {xs : List UInt8} : ∀ {s t : Lexer}, standFrom s xs = some t →
    t.since ≤ s.since + xs.length := by
  induction xs with
  | nil =>
    intro s t h
    obtain rfl := Option.some.inj h
    exact Nat.le_refl _
  | cons c xs ih =>
    intro s t h
    rw [standFrom_cons] at h
    obtain ⟨s', hs, h⟩ := Option.bind_eq_some_iff.mp h
    have hone := Lexer.scan_since hs
    have hrest := ih h
    simp only [List.length_cons]
    omega

/-- It grows by one byte at a time, so a calm text that starts below the limit does not get past
it. -/
theorem Calm.since_le {xs : List UInt8} : ∀ {s t : Lexer}, Calm s xs → s.since < confBuffer →
    standFrom s xs = some t → t.since ≤ confBuffer := by
  induction xs with
  | nil =>
    intro s t _ hs h
    obtain rfl := Option.some.inj h
    exact Nat.le_of_lt hs
  | cons c xs ih =>
    intro s t hcalm hs h
    rw [standFrom_cons] at h
    obtain ⟨s', hstep, h⟩ := Option.bind_eq_some_iff.mp h
    obtain ⟨-, hcalm⟩ := (calm_cons hstep).mp hcalm
    have hone := Lexer.scan_since hstep
    cases xs with
    | nil =>
      obtain rfl := Option.some.inj h
      omega
    | cons d xs =>
      have hne : s'.since ≠ confBuffer := hcalm [] d xs s' rfl rfl
      exact ih hcalm (by omega) h

/-- The bytes of a word between its quotes. -/
def rawLength (w : List UInt8) : Nat := (w.flatMap printByte).length

/-- A printed word, and the blank behind it. -/
theorem stand_word {s : Lexer} (hm : s.mode = .gap) (w : List UInt8) :
    ∃ s', standFrom s (printWord w ++ [Ch.space]) = some s' ∧ s'.mode = .gap ∧
      s'.words = s.words ++ [w] ∧ s'.since = rawLength w + 2 ∧
      (Calm s (printWord w ++ [Ch.space]) ↔
        s.since ≠ confBuffer ∧ rawLength w + 2 ≤ confBuffer) := by
  obtain ⟨v, hin⟩ := inside_print w false
  have hopen : s.scan Ch.dquote
      = some { s with mode := .word .double false false, text := [], since := 0 } := by
    rw [Lexer.scan, Lexer.read_gap hm, Lexer.inGap_open .double]
  obtain ⟨t, hadv, ht⟩ := Lexer.reads_inside s.words hin [] 0
    { s with mode := .word .double false false, text := [], since := 0 } ⟨rfl, rfl, rfl, rfl⟩
  let t' : Lexer :=
    { t with mode := .closed, words := t.words ++ [t.text], since := t.since + 1 }
  let u : Lexer := { t' with mode := .gap, since := t'.since + 1 }
  have hclose : t.scan Ch.dquote = some t' := by
    rw [Lexer.scan, Lexer.read_word ht.mode, Lexer.inWord_close .double]
  have hblank : t'.scan Ch.space = some u := by
    rw [Lexer.scan, Lexer.read_closed rfl, Lexer.inClosed_blank (by decide)]
  have hinside : standFrom { s with mode := .word .double false false, text := [], since := 0 }
      (w.flatMap printByte ++ [Ch.dquote, Ch.space]) = some u := by
    rw [standFrom_append, standFrom_of_advance hadv, Option.bind_some, standFrom_cons, hclose,
      Option.bind_some, standFrom_cons, hblank]
    rfl
  have heq : printWord w ++ [Ch.space]
      = Ch.dquote :: (w.flatMap printByte ++ [Ch.dquote, Ch.space]) := by simp [printWord]
  have hsince : u.since = rawLength w + 2 := by
    have htsince := ht.since
    simp only [u, t', htsince, rawLength]
    omega
  refine ⟨u, ?_, rfl, ?_, hsince, ?_⟩
  · rw [heq, standFrom_cons, hopen]
    exact hinside
  · simp only [u, t', ht.words, ht.text, List.nil_append]
  · rw [heq, calm_cons hopen]
    refine and_congr_right fun _ => ⟨fun hcalm => ?_, fun hle => ?_⟩
    · rw [← hsince]
      exact hcalm.since_le (show 0 < confBuffer by decide) hinside
    · intro pre c post r hpre hr
      have hlen := congrArg List.length hpre
      have hcount := standFrom_since_le hr
      simp only [List.length_append, List.length_cons, List.length_nil] at hlen hcount
      unfold rawLength at hle
      omega

/-- A printed line. -/
theorem stand_line {rc : Rc} {term : UInt8} (hterm : Ends term rc) : ∀ (ws : List (List UInt8))
    {s : Lexer}, s.mode = .gap → s.words ≠ [] ∨ ws ≠ [] →
      standFrom s (printLine ws term) = some .start ∧
      (Calm s (printLine ws term) ↔
        s.since ≠ confBuffer ∧ ∀ w ∈ ws, rawLength w + 2 < confBuffer) := by
  intro ws
  induction ws with
  | nil =>
    intro s hm hne
    have hw : s.words ≠ [] := hne.resolve_right (not_not.mpr rfl)
    have hscan : s.scan term = some .start := by
      cases hterm <;> simp +decide [Lexer.scan, Lexer.read, hm, Lexer.inGap, Lexer.ret, hw]
    have heq : printLine [] term = [term] := rfl
    rw [heq, standFrom_cons, hscan, calm_cons hscan]
    refine ⟨rfl, ?_⟩
    simp [calm_nil]
  | cons w ws ih =>
    intro s hm _
    obtain ⟨s', hstand, hm', hw', hsince, hcalm⟩ := stand_word hm w
    have heq : printLine (w :: ws) term = printWord w ++ [Ch.space] ++ printLine ws term := by
      simp [printLine]
    obtain ⟨hrest, hcalm'⟩ := ih hm' (Or.inl (by simp [hw']))
    rw [heq, standFrom_append, hstand, calm_append hstand, hcalm, hcalm', hsince,
      List.forall_mem_cons]
    refine ⟨hrest, ?_⟩
    constructor
    · rintro ⟨⟨hs, hle⟩, hne, hws⟩
      exact ⟨hs, by omega, hws⟩
    · rintro ⟨hs, hlt, hws⟩
      exact ⟨⟨hs, by omega⟩, by omega, hws⟩

/-- Every word is shorter than the buffer, with its escapes, a quote and a blank. -/
def ShortWords (ws : List (List UInt8)) : Prop := ∀ w ∈ ws, rawLength w + 2 < confBuffer

/-- A printed tree. -/
theorem stand_items {items : List Item} (h : Each (· ≠ []) items) : ∀ tail : List UInt8,
    standFrom .start (printItems items) = some .start ∧
    (Calm .start (printItems items ++ tail) ↔ Each ShortWords items ∧ Calm .start tail) := by
  have hstart : Lexer.start.since ≠ confBuffer := by decide
  induction h with
  | nil =>
    intro tail
    refine ⟨rfl, ?_⟩
    rw [printItems, List.nil_append]
    exact ⟨fun hc => ⟨.nil, hc⟩, fun hc => hc.2⟩
  | @simple ws items hws _ ih =>
    intro tail
    obtain ⟨hline, hcalm⟩ := stand_line .semicolon ws (s := .start) rfl (Or.inr hws)
    obtain ⟨hrest, hcalm'⟩ := ih tail
    rw [printItems, Item.print, standFrom_append, hline, List.append_assoc, calm_append hline,
      hcalm, hcalm']
    refine ⟨hrest, ?_⟩
    constructor
    · rintro ⟨⟨-, hshort⟩, hitems, htail⟩
      exact ⟨.simple hshort hitems, htail⟩
    · rintro ⟨_ | ⟨hshort, hitems⟩, htail⟩
      exact ⟨⟨hstart, hshort⟩, hitems, htail⟩
  | @block ws body items hws _ _ ihbody ih =>
    intro tail
    obtain ⟨hline, hcalm⟩ := stand_line .lbrace ws (s := .start) rfl (Or.inr hws)
    obtain ⟨hbody, hcalmb⟩ := ihbody (Ch.rbrace :: (printItems items ++ tail))
    obtain ⟨hrest, hcalm'⟩ := ih tail
    have hclose : Lexer.start.scan Ch.rbrace = some .start := by decide
    have heq : printItems (.block ws body :: items) ++ tail = printLine ws Ch.lbrace ++
        (printItems body ++ Ch.rbrace :: (printItems items ++ tail)) := by
      simp [printItems, Item.print]
    constructor
    · rw [printItems, Item.print, standFrom_append, standFrom_append, hline, Option.bind_some,
        standFrom_append, hbody, Option.bind_some, standFrom_cons, hclose]
      exact hrest
    · rw [heq, calm_append hline, hcalm, hcalmb, calm_cons hclose, hcalm']
      constructor
      · rintro ⟨⟨-, hshort⟩, hitemsb, -, hitems, htail⟩
        exact ⟨.block hshort hitemsb hitems, htail⟩
      · rintro ⟨_ | _ | ⟨hshort, hitemsb, hitems⟩, htail⟩
        exact ⟨⟨hstart, hshort⟩, hitemsb, hstart, hitems, htail⟩

section
variable {σ τ : Type} {S : Sys σ} {T : Table σ} {see : σ → τ} {fd : Int}

/-- **A printed tree is accepted**, with this outcome, just when its words are short and it runs
so. -/
theorem confParse_print_iff {items : List Item} (hitems : Each (· ≠ []) items) (hS : S.Allocates)
    (hopen : S.Opens fd (printItems items)) (hT : T.Regular) (hunseen : S.Unseen see)
    (hsees : T.Sees S see) {cf : Cf σ} (hview : cf.view.handler = 0) (name : List UInt8) {n : Nat}
    (hn : (printItems items).length < n) (y : τ) :
    ((confParse S T n (some name) cf).1 = .ok () ∧
        see (confParse S T n (some name) cf).2.world = y) ↔
      Each ShortWords items ∧ Runs S T see cf.view (see cf.world) items y := by
  have hwritten : Written .fileDone items (printItems items) := by
    have hall := written_print hitems (Or.inr rfl) .fileDone
    rwa [List.append_nil] at hall
  have hlate : ¬ Late (printItems items) ↔ Each ShortWords items := by
    have hall := (stand_items hitems []).2
    rw [List.append_nil, calm_start_iff] at hall
    rw [hall]
    simp [calm_nil]
  obtain ⟨n, rfl⟩ : ∃ d, n = d + 1 := ⟨n - 1, by omega⟩
  rw [← hlate]
  constructor
  · rintro ⟨hok, rfl⟩
    obtain ⟨items', hwritten', hlate, hruns⟩ := confParse_runs hS hopen hT hunseen hview name hok
    have hsame : printItems items ++ [] = printItems items ++ [] := rfl
    obtain ⟨-, rfl, -⟩ := hwritten.unique hwritten' hsame (by simp) (by simp)
    exact ⟨hlate, hruns⟩
  · rintro ⟨hlate, hruns⟩
    exact hruns.confParse hS hopen hT hunseen hsees hview name (by omega) hwritten hlate

end

/-! ## 7. The table of the program

The core module satisfies the conditions: its handler looks at its own record only, and the calls
of the parser leave the records alone. -/

section
variable {τ : Type} {ncpu : Int}

/-- What the handlers of the core module see. -/
def Configured.parts (w : Configured τ) : (Nat → Nat) × (Nat → CoreConf) := (w.slots, w.core)

theorem coreTable_regular : (coreTable (τ := τ) ncpu).Regular where
  names := coreTable_names
  simple m cmd h _ view args p w _ := by
    have hset : cmd.set = setWorkerProcesses ncpu := by
      simp only [coreTable, Table.commands, cwCoreModule, coreCommands, List.flatMap_cons,
        List.flatMap_nil, Option.getD_some, List.map_cons, List.map_nil, List.append_nil,
        List.mem_singleton, Prod.mk.injEq] at h
      rw [h.2]
    rw [hset]
    unfold setWorkerProcesses
    simp only
    split_ifs <;> exact ⟨_, _, rfl⟩
  block m cmd h hblock := by
    simp only [coreTable, Table.commands, cwCoreModule, coreCommands, List.flatMap_cons,
      List.flatMap_nil, Option.getD_some, List.map_cons, List.map_nil, List.append_nil,
      List.mem_singleton, Prod.mk.injEq] at h
    have hsimple : (mainConf ||| directConf ||| confTake1) &&& confBlock = 0 := by decide
    rw [h.2] at hblock
    exact absurd hsimple hblock

theorem coreTable_sees (S : Sys τ) :
    (coreTable (τ := τ) ncpu).Sees S.configured Configured.parts where
  load a w w' h := congrFun (Prod.mk.inj h).1 a
  set m cmd h view args p w w' hw := by
    have hset : cmd.set = setWorkerProcesses ncpu := by
      simp only [coreTable, Table.commands, cwCoreModule, coreCommands, List.flatMap_cons,
        List.flatMap_nil, Option.getD_some, List.map_cons, List.map_nil, List.append_nil,
        List.mem_singleton, Prod.mk.injEq] at h
      rw [h.2]
    obtain ⟨hslots, hcore⟩ := Prod.mk.inj hw
    have hworkers : ∀ n, (w.setWorkers p n).parts = (w'.setWorkers p n).parts := by
      intro n
      simp only [Configured.parts, Configured.setWorkers, hslots, hcore]
    rw [hset]
    unfold setWorkerProcesses
    simp only [hcore, Configured.setWorkers_core]
    split_ifs
    · exact ⟨rfl, rfl, hw⟩
    · exact ⟨rfl, rfl, hworkers _⟩
    · exact ⟨rfl, rfl, hworkers _⟩
    · exact ⟨rfl, rfl, hworkers _⟩

theorem Sys.configured_unseen (S : Sys τ) : S.configured.Unseen Configured.parts :=
  ⟨fun _ _ => rfl, fun _ _ => rfl, fun _ _ => rfl, fun _ _ => rfl, fun _ _ _ _ => rfl,
    fun _ _ => rfl, fun _ => rfl, fun _ => rfl, fun _ _ => rfl⟩

end

/-- A comment, a word with an escape, a quoted word with a quote and a `;` in it, an empty one and
a block. -/
def richText : List UInt8 :=
  [Ch.sharp, 33, Ch.lf, Ch.space, 97, Ch.backslash, Ch.n, 98, Ch.space, Ch.dquote, 120,
    Ch.backslash, Ch.dquote, Ch.semicolon, Ch.dquote, Ch.tab, Ch.squote, Ch.squote, Ch.lbrace,
    Ch.rbrace]

/-- The words in front of the block. -/
def richWords : List (List UInt8) := [[97, Ch.lf, 98], [120, Ch.dquote, Ch.semicolon], []]

/-- The statement for them. -/
theorem readToken_param_iff_sample : ∃ t rest, richText = t ++ rest ∧
    Line (.gap false) richWords .blockStart t ∧ (Rc.blockStart = .fileDone → rest = []) :=
  (readToken_param_iff (Sys.plain_allocates []) richText () .blockStart richWords).mp ⟨rfl, rfl⟩

/-- `worker_processes 12;`, with a comment in front. -/
def sampleFile : List UInt8 := Ch.sharp :: Ch.lf :: sampleParam

/-- What the core module sees after it. -/
def sampleOutcome : (Nat → Nat) × (Nat → CoreConf) := (sampleCore.world.setWorkers 1 12).parts

theorem confParse_iff_runs_core : ∃ items, Written .fileDone items sampleFile ∧
    ¬ Late sampleFile ∧ Runs (Sys.plain sampleFile).configured (coreTable 4) Configured.parts
      sampleCore.view sampleCore.world.parts items sampleOutcome :=
  (confParse_iff_runs (Sys.configured_allocates (Sys.plain_allocates _))
    (Sys.configured_opens (Sys.plain_opens _)) coreTable_regular (Sys.configured_unseen _)
    (coreTable_sees _) rfl [] (show sampleFile.length < 30 by decide) _).mp ⟨rfl, rfl⟩

/-- `worker_processes 12`, as a tree. -/
def sampleItems : List Item := [.simple [workerProcessesText, [49, 50]]]

theorem confParse_print_iff_core : Each ShortWords sampleItems ∧
    Runs (Sys.plain (printItems sampleItems)).configured (coreTable 4) Configured.parts
      sampleCore.view sampleCore.world.parts sampleItems sampleOutcome :=
  (confParse_print_iff (.simple (by simp) .nil) (Sys.configured_allocates (Sys.plain_allocates _))
    (Sys.configured_opens (Sys.plain_opens _)) coreTable_regular (Sys.configured_unseen _)
    (coreTable_sees _) rfl [] (show (printItems sampleItems).length < 30 by decide) _).mp
    ⟨rfl, rfl⟩

end Capwap
