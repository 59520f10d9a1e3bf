/-
# Which command a directive is dispatched to

`cw_conf_handler` walks the modules and their commands, compares names by length and by
`cw_strcmp`, and takes the first command whose module type and location fit.  On a word of the
tokenizer, which ends in a NUL, the two comparisons together are equality with the command's name
(`Command.named_iff`), so the search finds the first matching entry of the flat list of commands
(`findCommand_iff`).  `confHandler_ok_iff` says when the dispatch succeeds.
-/
import Capwap.Conf.Parse
import Capwap.Conf.Lexer
import Mathlib.Data.List.TakeWhile

namespace Capwap

/-! ## 1. Comparing names

A word of the tokenizer has its length and ends in a NUL; a command's name is a C string.  The
length is compared first, so a word with a NUL inside is longer than what `cw_strcmp` sees of it
and matches no name. -/

theorem cStr_of_not_mem {bs : List UInt8} (h : (0 : UInt8) ∉ bs) : cStr bs = bs := by
  rw [cStr, List.takeWhile_eq_self_iff]
  intro c hc
  simpa using fun h0 : c = 0 => h (h0 ▸ hc)

/-- What `cw_strcmp` sees of a word: the bytes before its first NUL. -/
theorem cStr_append_zero (bs : List UInt8) : cStr (bs ++ [0]) = cStr bs := by
  unfold cStr
  rw [List.takeWhile_append]
  split
  · rename_i hlen
    have hall := (List.takeWhile_prefix _).eq_of_length hlen
    rw [hall]
    simp
  · rfl

/-- A word is named like a command exactly when its text is the command's name.  The comparison of
lengths settles the words that have a NUL in them. -/
theorem Command.named_iff {σ : Type} {cmd : Command σ} (hname : (0 : UInt8) ∉ cmd.name)
    (text : List UInt8) : cmd.Named (Word.of text) ↔ text = cmd.name := by
  unfold Command.Named Word.of
  simp only [cStr_append_zero, cStr_of_not_mem hname]
  constructor
  · rintro ⟨hlen, hstr⟩
    -- no byte of the text was cut off, so it has no NUL
    have hpre : cStr text <+: text := List.takeWhile_prefix _
    have hall : cStr text = text := hpre.eq_of_length (by rw [hstr, hlen])
    rw [← hall, hstr]
  · rintro rfl
    exact ⟨rfl, cStr_of_not_mem hname⟩

/-! ## 2. The search

The two nested loops are one search through one list (`Table.commands`).  "First" is said by
splitting the list: what stands before the command does not match. -/

section
variable {σ : Type}

/-- The commands of a table, in module order and then in command order. -/
def Table.commands (T : Table σ) : List (Module σ × Command σ) :=
  T.modules.flatMap fun m => (m.commands.getD []).map fun cmd => (m, cmd)

/-- A command fits a name, the module type and the location. -/
structure Matches (view : View) (text : List UInt8) (x : Module σ × Command σ) : Prop where
  name : text = x.2.name
  module : x.1.type = confModule ∨ x.1.type = view.moduleType
  location : x.2.type &&& view.cmdType ≠ 0

instance (view : View) (text : List UInt8) (x : Module σ × Command σ) :
    Decidable (Matches view text x) :=
  decidable_of_iff (text = x.2.name ∧ (x.1.type = confModule ∨ x.1.type = view.moduleType) ∧
    x.2.type &&& view.cmdType ≠ 0)
    ⟨fun ⟨h1, h2, h3⟩ => ⟨h1, h2, h3⟩, fun ⟨h1, h2, h3⟩ => ⟨h1, h2, h3⟩⟩

/-- The first command that matches: none of those before it does. -/
def FirstMatch (T : Table σ) (view : View) (text : List UInt8) (m : Module σ)
    (cmd : Command σ) : Prop :=
  ∃ before after, T.commands = before ++ (m, cmd) :: after ∧ Matches view text (m, cmd) ∧
    ∀ x ∈ before, ¬ Matches view text x

/-- Command names are C strings. -/
def Table.NamesOk (T : Table σ) : Prop := ∀ x ∈ T.commands, (0 : UInt8) ∉ x.2.name

/-- The inner loop takes the first match of its module, whatever was found before. -/
theorem findIn_eq (view : View) (m : Module σ) (text : List UInt8) :
    ∀ {cmds : List (Command σ)} (found : Bool), (∀ cmd ∈ cmds, (0 : UInt8) ∉ cmd.name) →
      (findIn view m (Word.of text) found cmds).2
        = cmds.find? fun cmd => decide (Matches view text (m, cmd)) := by
  intro cmds
  induction cmds with
  | nil =>
    intro found _
    rfl
  | cons cmd cmds ih =>
    intro found hnames
    have hrec : ∀ b, (findIn view m (Word.of text) b cmds).2
        = cmds.find? fun cmd => decide (Matches view text (m, cmd)) :=
      fun b => ih b fun c hc => hnames c (List.mem_cons_of_mem _ hc)
    have hnamed := Command.named_iff (hnames cmd List.mem_cons_self) text
    unfold findIn
    by_cases h1 : cmd.Named (Word.of text)
    · rw [if_neg (not_not.mpr h1)]
      by_cases h2 : m.type ≠ confModule ∧ m.type ≠ view.moduleType
      · rw [if_pos h2, hrec, List.find?_cons_of_neg]
        intro hm
        exact (of_decide_eq_true hm).module.elim h2.1 h2.2
      · rw [if_neg h2]
        by_cases h3 : cmd.type &&& view.cmdType = 0
        · rw [if_pos h3, hrec, List.find?_cons_of_neg]
          intro hm
          exact (of_decide_eq_true hm).location h3
        · rw [if_neg h3, List.find?_cons_of_pos]
          exact decide_eq_true ⟨hnamed.mp h1, by tauto, h3⟩
    · rw [if_pos h1, hrec, List.find?_cons_of_neg]
      intro hm
      exact h1 (hnamed.mpr (of_decide_eq_true hm).name)

/-- The search over some modules takes the first match of theirs.  The induction is on the modules;
a module without a match leaves the search to the next. -/
theorem findCommand_eq (view : View) (text : List UInt8) : ∀ {ms : List (Module σ)} (found : Bool)
    (m : Module σ) (cmd : Command σ),
    (∀ x ∈ ms.flatMap (fun m => (m.commands.getD []).map fun cmd => (m, cmd)),
      (0 : UInt8) ∉ x.2.name) →
    (findCommand view (Word.of text) found ms = .command m cmd ↔
      (ms.flatMap fun m => (m.commands.getD []).map fun cmd => (m, cmd)).find?
        (fun x => decide (Matches view text x)) = some (m, cmd)) := by
  intro ms
  induction ms with
  | nil =>
    intro found m cmd _
    cases found <;> simp [findCommand]
  | cons m₀ ms ih =>
    intro found m cmd hnames
    rw [List.flatMap_cons] at hnames
    have hrest := fun b => ih b m cmd fun x hx => hnames x (List.mem_append_right _ hx)
    rw [List.flatMap_cons, List.find?_append, List.find?_map]
    unfold findCommand
    cases hc : m₀.commands with
    | none => simpa using hrest found
    | some cmds =>
      have hfind := findIn_eq view m₀ text found
        fun c hm => hnames (m₀, c) (List.mem_append_left _ (by simpa [hc] using hm))
      cases hin : findIn view m₀ (Word.of text) found cmds with
      | mk b taken =>
        rw [hin] at hfind
        simp only [Option.getD_some, Function.comp_def, ← hfind, hin]
        cases taken with
        | none => simpa using hrest b
        | some c => simp

/-- The search takes the first command that matches. -/
theorem findCommand_iff {T : Table σ} (hT : T.NamesOk) {view : View} {text : List UInt8}
    {m : Module σ} {cmd : Command σ} :
    findCommand view (Word.of text) false T.modules = .command m cmd ↔
      FirstMatch T view text m cmd := by
  rw [findCommand_eq view text false m cmd hT]
  show T.commands.find? _ = _ ↔ _
  rw [List.find?_eq_some_iff_append]
  constructor
  · rintro ⟨hm, before, after, heq, hbefore⟩
    exact ⟨before, after, heq, of_decide_eq_true hm, fun x hx => by simpa using hbefore x hx⟩
  · rintro ⟨before, after, heq, hm, hbefore⟩
    exact ⟨decide_eq_true hm, before, after, heq, fun x hx => by simpa using hbefore x hx⟩

theorem FirstMatch.mem {T : Table σ} {view : View} {text : List UInt8} {m : Module σ}
    {cmd : Command σ} (h : FirstMatch T view text m cmd) : (m, cmd) ∈ T.commands := by
  obtain ⟨before, after, heq, -⟩ := h
  rw [heq]
  simp

/-! ## 3. The dispatch -/

/-- A directive fits a command: it is the first one that matches, the terminator agrees with the
block flag, and the mask admits the number of words.  It is a condition on the words and the table,
with nothing of the parser in it. -/
structure Fits (T : Table σ) (view : View) (words : List (List UInt8)) (last : Rc)
    (m : Module σ) (cmd : Command σ) : Prop where
  first : ∃ name rest, words = name :: rest ∧ FirstMatch T view name m cmd
  terminator : cmd.type &&& confBlock ≠ 0 ↔ last = .blockStart
  count : admitsArgs cmd.type words.length = true

/-- The dispatch of a directive does not end a parse successfully: it goes on or fails. -/
theorem dispatch_ne_done {S : Sys σ} {T : Table σ} {parse : Parser σ} {rc : Rc} {cf : Cf σ}
    (hz : cf.view.handler = 0) (cf' : Cf σ) :
    dispatch S T parse rc cf ≠ .done (.ok (), cf') := by
  unfold dispatch
  rw [if_neg (not_not.mpr hz)]
  split <;> simp

/-- Without a custom handler, a round goes on when `cw_conf_handler` succeeds. -/
theorem dispatch_next_iff {S : Sys σ} {T : Table σ} {parse : Parser σ} {rc : Rc} {cf cf' : Cf σ}
    (hz : cf.view.handler = 0) :
    dispatch S T parse rc cf = .next cf' ↔ confHandler S T parse rc cf = (.ok (), cf') := by
  unfold dispatch
  rw [if_neg (not_not.mpr hz)]
  cases confHandler S T parse rc cf with
  | mk res cf₁ => cases res <;> simp

/-- When the dispatch of the words of a token that ends in `;` or `{` succeeds: they fit a command,
and its handler accepts them. -/
theorem confHandler_ok_iff {S : Sys σ} {T : Table σ} (hT : T.NamesOk) {parse : Parser σ}
    {last : Rc} (hlast : last = .ok ∨ last = .blockStart) {cf cf' : Cf σ}
    {words : List (List UInt8)} (hargs : cf.args = words.map Word.of) :
    confHandler S T parse last cf = (.ok (), cf') ↔
      ∃ m cmd, Fits T cf.view words last m cmd ∧
        (cmd.set cf.view cf.args (confPointer S cf.view m cmd cf.world) cf.world).run parse cf
          = (.ok, cf') := by
  cases words with
  | nil =>
    rw [List.map_nil] at hargs
    simp only [confHandler, hargs]
    constructor
    · intro h
      exact absurd (congrArg Prod.fst h) (by simp)
    · rintro ⟨m, cmd, ⟨⟨name, rest, hw, -⟩, -, -⟩, -⟩
      exact absurd hw (by simp)
  | cons name rest =>
    have hlen : cf.args.length = (name :: rest).length := by rw [hargs, List.length_map]
    have hargs' : cf.args = Word.of name :: rest.map Word.of := by rw [hargs, List.map_cons]
    have hfirst : ∀ {m : Module σ} {cmd : Command σ},
        findCommand cf.view (Word.of name) false T.modules = .command m cmd ↔
          ∃ n r, name :: rest = n :: r ∧ FirstMatch T cf.view n m cmd := by
      intro m cmd
      rw [findCommand_iff hT]
      constructor
      · exact fun h => ⟨name, rest, rfl, h⟩
      · rintro ⟨n, r, heq, h⟩
        obtain ⟨rfl, rfl⟩ := List.cons.inj heq
        exact h
    unfold confHandler
    split
    · rename_i hnil
      rw [hargs'] at hnil
      exact absurd hnil (by simp)
    · rename_i w ws hcons
      obtain ⟨rfl, rfl⟩ := List.cons.inj (hargs'.symm.trans hcons)
      cases hfind : findCommand cf.view (Word.of name) false T.modules with
      | notAllowed =>
        constructor
        · intro h
          exact absurd (congrArg Prod.fst h) (by simp)
        · rintro ⟨m, cmd, hfits, -⟩
          exact absurd (hfind.symm.trans (hfirst.mpr hfits.first)) (by simp)
      | unknown =>
        constructor
        · intro h
          exact absurd (congrArg Prod.fst h) (by simp)
        · rintro ⟨m, cmd, hfits, -⟩
          exact absurd (hfind.symm.trans (hfirst.mpr hfits.first)) (by simp)
      | command m cmd =>
        -- the three tests before the call
        have hfits : Fits T cf.view (name :: rest) last m cmd ↔
            ¬ (cmd.type &&& confBlock = 0 ∧ last ≠ .ok) ∧
              ¬ (cmd.type &&& confBlock ≠ 0 ∧ last ≠ .blockStart) ∧
                ¬ ¬ admitsArgs cmd.type cf.args.length := by
          constructor
          · rintro ⟨-, hterm, hcount⟩
            refine ⟨?_, fun h => h.2 (hterm.mp h.1), fun h => h (hlen ▸ hcount)⟩
            rintro ⟨hzero, hne⟩
            rcases hlast with rfl | rfl
            · exact hne rfl
            · exact hterm.mpr rfl hzero
          · rintro ⟨h1, h2, h3⟩
            refine ⟨hfirst.mp hfind, ⟨fun hb => ?_, fun hl hzero => ?_⟩, ?_⟩
            · by_contra hl
              exact h2 ⟨hb, hl⟩
            · exact h1 ⟨hzero, by rw [hl]; simp⟩
            · rw [← hlen]
              simpa using h3
        have hunique : ∀ {m' : Module σ} {cmd' : Command σ},
            Fits T cf.view (name :: rest) last m' cmd' → m' = m ∧ cmd' = cmd := by
          intro m' cmd' h
          have heq := hfind.symm.trans (hfirst.mpr h.first)
          obtain ⟨rfl, rfl⟩ := Lookup.command.inj heq
          exact ⟨rfl, rfl⟩
        have hiff : (∃ m' cmd', Fits T cf.view (name :: rest) last m' cmd' ∧
            (cmd'.set cf.view cf.args (confPointer S cf.view m' cmd' cf.world) cf.world).run
              parse cf = (.ok, cf')) ↔
            Fits T cf.view (name :: rest) last m cmd ∧
              (cmd.set cf.view cf.args (confPointer S cf.view m cmd cf.world) cf.world).run
                parse cf = (.ok, cf') := by
          constructor
          · rintro ⟨m', cmd', hf, hrun⟩
            obtain ⟨rfl, rfl⟩ := hunique hf
            exact ⟨hf, hrun⟩
          · exact fun h => ⟨m, cmd, h⟩
        rw [hiff, hfits]
        simp only
        by_cases h1 : cmd.type &&& confBlock = 0 ∧ last ≠ .ok
        · rw [if_pos h1]
          exact ⟨fun h => absurd (congrArg Prod.fst h) (by simp), fun h => absurd h1 h.1.1⟩
        rw [if_neg h1]
        by_cases h2 : cmd.type &&& confBlock ≠ 0 ∧ last ≠ .blockStart
        · rw [if_pos h2]
          exact ⟨fun h => absurd (congrArg Prod.fst h) (by simp), fun h => absurd h2 h.1.2.1⟩
        rw [if_neg h2]
        by_cases h3 : ¬ admitsArgs cmd.type cf.args.length = true
        · rw [if_pos h3]
          exact ⟨fun h => absurd (congrArg Prod.fst h) (by simp), fun h => absurd h3 h.1.2.2⟩
        rw [if_neg h3]
        cases hrun : (cmd.set cf.view cf.args (confPointer S cf.view m cmd cf.world)
            cf.world).run parse cf with
        | mk rv cf₁ => cases rv <;> simp [h1, h2, h3]

end

end Capwap
