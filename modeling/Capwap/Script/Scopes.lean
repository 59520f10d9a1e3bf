/-
# Which builders are well formed

`walk` goes through the statements of a function and keeps, for each block that is open, the JSON
variables declared there.  It fails where a variable is used that no open block declares, and where
there is no block to close; a function that leaves no block open is balanced.  The parameter is not
a JSON value, whatever its name is.

What a builder declares is decided by the first field of its struct, and what it closes and returns
by the last.  So only two kinds of structs have a well-formed builder (`StructDef.Builds`): lists,
whose first field is `uint16_t cnt` and whose one pointer `next` comes last; and records, whose
first field is one of those that open a block, without a later pointer `next`.  In the others `obj`
is used undeclared, as where the first field is an array, or a variable is returned out of its block
(`StructDef.wellFormed_iff`).
-/
import Mathlib.Data.List.Forall2
import Capwap.Script.Interface

namespace Capwap.Script

/-! ## 1. Scopes

The C functions are not run here but checked, as a compiler would check them for the two variables
that they declare.  A statement is looked at with the blocks that are open before it. -/

/-- The JSON variables that the open blocks declare, the innermost block first.  A function begins
with none. -/
abbrev Scopes : Type := List (List Var)

def Scopes.Sees (sc : Scopes) (v : Var) : Prop := ∃ block ∈ sc, v ∈ block

instance (sc : Scopes) (v : Var) : Decidable (sc.Sees v) := by
  unfold Scopes.Sees
  infer_instance

/-- The JSON variables that a statement uses. -/
def Stmt.uses : Stmt → List Var
  | .add _ _ => [.obj]
  | .push => [.array, .obj]
  | .ret v => [v]
  | _ => []

/-- The blocks after a statement, if it can stand there.  A head stands outside of blocks only, and
anything else inside of one. -/
def Stmt.after : Stmt → Scopes → Option Scopes
  | .head _ _, [] => some [[]]
  | .head _ _, _ :: _ => none
  | _, [] => none
  | .close, _ :: sc => some sc
  | .newArray, block :: sc => some ((.array :: block) :: sc)
  | .newObj, block :: sc => some ((.obj :: block) :: sc)
  | .loop, sc => some ([] :: sc)
  | .test _, sc => some ([] :: sc)
  | _, sc => some sc

/-- The blocks after a statement that uses what is declared. -/
def Stmt.check (s : Stmt) (sc : Scopes) : Option Scopes :=
  if ∀ v ∈ s.uses, sc.Sees v then s.after sc else none

/-- The blocks after some statements, if each of them can stand where it does. -/
def walk : Scopes → List Stmt → Option Scopes
  | sc, [] => some sc
  | sc, s :: stmts => (s.check sc).bind (walk · stmts)

/-- A function ends by returning a variable: the last two statements are a return and a brace. -/
def returns : List Stmt → Bool
  | [.ret _, .close] => true
  | _ :: stmts => returns stmts
  | [] => false

/-- Every use of a JSON variable is in the scope of its declaration, `return` included, braces are
balanced, and the function ends by returning a variable. -/
structure WellFormed (fn : List Stmt) : Prop where
  scopes : walk [] fn = some []
  returns : returns fn = true

instance (fn : List Stmt) : Decidable (WellFormed fn) :=
  decidable_of_iff (walk [] fn = some [] ∧ returns fn = true)
    ⟨fun h => ⟨h.1, h.2⟩, fun h => ⟨h.1, h.2⟩⟩

/-! ## 2. Fields in scopes

In a block where `obj` is declared, a field can be added, and the blocks stay as they are.  Where
it is not, the first field for which something is written fails.  A pointer `next` needs both
variables, and closes a block. -/

theorem walk_append (stmts stmts' : List Stmt) : ∀ sc,
    walk sc (stmts ++ stmts') = (walk sc stmts).bind (walk · stmts') := by
  induction stmts with
  | nil =>
    intro sc
    rfl
  | cons s stmts ih =>
    intro sc
    rw [List.cons_append, walk, walk]
    cases s.check sc with
    | none => rfl
    | some sc' => exact ih sc'

section
variable (camelize : Text → Text) (type : Text) {sc : Scopes} {f : Field}

/-- Where the object is declared, a field is added. -/
theorem walk_adds (hne : sc ≠ []) (hobj : sc.Sees .obj) (f : Field) :
    walk sc (f.adds camelize type) = some sc := by
  obtain ⟨block, sc, rfl⟩ := List.exists_cons_of_ne_nil hne
  unfold Field.adds
  cases f.value camelize type with
  | none => rfl
  | some e =>
    have hcheck : (Stmt.add f.name e).check (block :: sc) = some (block :: sc) :=
      if_pos (by simpa [Stmt.uses] using hobj)
    simp [walk, hcheck]

/-- Where it is not, no statement can add one. -/
theorem walk_adds_blind (hobj : ¬ sc.Sees .obj) (f : Field) :
    walk sc (f.adds camelize type) = none ∨ walk sc (f.adds camelize type) = some sc := by
  unfold Field.adds
  cases f.value camelize type with
  | none => exact Or.inr rfl
  | some e =>
    have hcheck : (Stmt.add f.name e).check sc = none :=
      if_neg (by simpa [Stmt.uses] using hobj)
    exact Or.inl (by simp [walk, hcheck])

theorem walk_next (hf : f.IsNext) (h : ¬ (sc.Sees .array ∧ sc.Sees .obj)) :
    walk sc (f.adding camelize type) = none := by
  have hcheck : Stmt.push.check sc = none := if_neg (by simpa [Stmt.uses] using h)
  unfold Field.adding
  rw [if_pos hf]
  simp [walk, hcheck]

theorem walk_notNext (hf : ¬ f.IsNext) :
    walk sc (f.adding camelize type) = walk sc (f.adds camelize type) := by
  unfold Field.adding
  rw [if_neg hf]

/-- Where the object is declared, the fields up to `next` are added. -/
theorem walk_fields (hne : sc ≠ []) (hobj : sc.Sees .obj) : ∀ (fs : List Field),
    (∀ f ∈ fs, ¬ f.IsNext) → walk sc (fs.flatMap (Field.adding camelize type)) = some sc := by
  intro fs
  induction fs with
  | nil =>
    intro _
    rfl
  | cons f fs ih =>
    intro h
    rw [List.flatMap_cons, walk_append, walk_notNext camelize type (h f List.mem_cons_self),
      walk_adds camelize type hne hobj]
    exact ih fun x hx => h x (List.mem_cons_of_mem _ hx)

/-- Without a declaration of both, no fields get past `next`; those that do come through leave the
blocks as they are. -/
theorem walk_blind (h : ¬ (sc.Sees .array ∧ sc.Sees .obj)) (hne : sc ≠ []) : ∀ (fs : List Field),
    walk sc (fs.flatMap (Field.adding camelize type)) = none ∨
      walk sc (fs.flatMap (Field.adding camelize type)) = some sc ∧ ∀ f ∈ fs, ¬ f.IsNext := by
  intro fs
  induction fs with
  | nil => exact Or.inr ⟨rfl, by simp⟩
  | cons f fs ih =>
    rw [List.flatMap_cons, walk_append]
    by_cases hf : f.IsNext
    · rw [walk_next camelize type hf h]
      exact Or.inl rfl
    · have hadds : walk sc (f.adds camelize type) = none ∨
          walk sc (f.adds camelize type) = some sc := by
        by_cases hobj : sc.Sees .obj
        · exact Or.inr (walk_adds camelize type hne hobj f)
        · exact walk_adds_blind camelize type hobj f
      rw [walk_notNext camelize type hf]
      rcases hadds with hnone | hsome
      · rw [hnone]
        exact Or.inl rfl
      · rw [hsome]
        rcases ih with ih | ⟨ih, hfs⟩
        · exact Or.inl ih
        · exact Or.inr ⟨ih, by simpa [hf] using hfs⟩

/-! ## 3. Structs

Only the first field and the pointers `next` matter for the blocks.  A builder that starts with a
loop is good if there is one such pointer and it comes last, and one that starts with a block if
there is none. -/

/-- A list: the counter comes first, and the one pointer `next` last. -/
def StructDef.IsList (d : StructDef) : Prop :=
  d.first = .counter ∧ ∃ mid last, d.rest = mid ++ [last] ∧ last.IsNext ∧ ∀ f ∈ mid, ¬ f.IsNext

/-- A record: the first field opens its block, and no pointer `next` is to be linked. -/
def StructDef.IsRecord (d : StructDef) : Prop :=
  d.first.Opens ∧ (∀ f ∈ d.rest, ¬ f.IsNext) ∧ ¬ (d.first.IsNext ∧ d.rest = [])

/-- The structs that have a well-formed builder. -/
def StructDef.Builds (d : StructDef) : Prop := d.IsList ∨ d.IsRecord

theorem getLastD_notNext : ∀ (fs : List Field) (prev : Field), (∀ f ∈ fs, ¬ f.IsNext) →
    (fs.getLastD prev).IsNext → fs = [] ∧ prev.IsNext := by
  intro fs prev hfs hlast
  rcases List.eq_nil_or_concat fs with rfl | ⟨init, last, rfl⟩
  · exact ⟨rfl, hlast⟩
  · rw [List.concat_eq_append, List.getLastD_concat] at hlast
    exact absurd hlast (hfs last (by simp))

/-- The rest of a list, in the loop.  The induction is on the fields, up to the first `next`;
nothing that is written after it can find the object. -/
theorem walk_list : ∀ (fs : List Field) (prev : Field), ¬ prev.IsNext →
    ((walk [[.obj], [.array]] (fs.flatMap (Field.adding camelize type))).bind
        (walk · (ending (fs.getLastD prev).IsNext)) = some []
      ↔ ∃ mid last, fs = mid ++ [last] ∧ last.IsNext ∧ ∀ f ∈ mid, ¬ f.IsNext) := by
  intro fs
  induction fs with
  | nil =>
    intro prev hprev
    constructor
    · intro h
      have hnone : walk [[.obj], [.array]] (ending false) = none := by decide
      simp only [List.flatMap_nil, walk, Option.bind_some, List.getLastD_nil, hprev, decide_false,
        hnone] at h
      cases h
    · rintro ⟨mid, last, hnil, -⟩
      simp at hnil
  | cons f fs ih =>
    intro prev _
    rw [List.flatMap_cons, walk_append, List.getLastD_cons]
    by_cases hf : f.IsNext
    · have hnext : walk [[.obj], [.array]] (f.adding camelize type) = some [[.array]] := by
        unfold Field.adding
        rw [if_pos hf]
        decide
      rw [hnext, Option.bind_some]
      have hblind : ¬ (Scopes.Sees [[.array]] .array ∧ Scopes.Sees [[.array]] .obj) := by decide
      constructor
      · intro h
        rcases walk_blind camelize type hblind (by simp) fs with hnone | ⟨hsome, hfs⟩
        · rw [hnone] at h
          cases h
        · rw [hsome, Option.bind_some] at h
          by_cases hlast : (fs.getLastD f).IsNext
          · obtain ⟨rfl, -⟩ := getLastD_notNext fs f hfs hlast
            exact ⟨[], f, rfl, hf, by simp⟩
          · have hnone : walk [[.array]] (ending false) = none := by decide
            simp only [hlast, decide_false, hnone] at h
            cases h
      · rintro ⟨mid, last, hmid, hlast, hnot⟩
        cases mid with
        | nil =>
          obtain ⟨rfl, rfl⟩ := List.cons.inj hmid
          simp only [List.flatMap_nil, walk, Option.bind_some, List.getLastD_nil, hf, decide_true]
          decide
        | cons x mid =>
          obtain ⟨rfl, -⟩ := List.cons.inj hmid
          exact absurd hf (hnot f List.mem_cons_self)
    · rw [walk_notNext camelize type hf, walk_adds camelize type (by simp) (by decide),
        Option.bind_some, ih f hf]
      constructor
      · rintro ⟨mid, last, rfl, hlast, hmid⟩
        exact ⟨f :: mid, last, rfl, hlast, by simpa [hf] using hmid⟩
      · rintro ⟨mid, last, hmid, hlast, hnot⟩
        cases mid with
        | nil =>
          obtain ⟨rfl, -⟩ := List.cons.inj hmid
          exact absurd hlast hf
        | cons x mid =>
          obtain ⟨rfl, rfl⟩ := List.cons.inj hmid
          exact ⟨mid, last, rfl, hlast, fun g hg => hnot g (List.mem_cons_of_mem _ hg)⟩

/-- The rest of a record, in the block that its first field has opened. -/
theorem walk_record (first : Field) (fs : List Field) :
    (walk [[], [.obj]] (fs.flatMap (Field.adding camelize type))).bind
        (walk · (ending (fs.getLastD first).IsNext)) = some []
      ↔ (∀ f ∈ fs, ¬ f.IsNext) ∧ ¬ (first.IsNext ∧ fs = []) := by
  have hblind : ¬ (Scopes.Sees [[], [.obj]] .array ∧ Scopes.Sees [[], [.obj]] .obj) := by decide
  constructor
  · intro h
    rcases walk_blind camelize type hblind (by simp) fs with hnone | ⟨hsome, hfs⟩
    · rw [hnone] at h
      cases h
    · refine ⟨hfs, ?_⟩
      rintro ⟨hfirst, rfl⟩
      have hnone : walk [[], [.obj]] (ending true) = none := by decide
      simp only [hsome, Option.bind_some, List.getLastD_nil, hfirst, decide_true, hnone] at h
      cases h
  · rintro ⟨hfs, hfirst⟩
    have hlast : ¬ (fs.getLastD first).IsNext := by
      intro hlast
      obtain ⟨hnil, hnext⟩ := getLastD_notNext fs first hfs hlast
      exact hfirst ⟨hnext, hnil⟩
    rw [walk_fields camelize type (by simp) (by decide) fs hfs, Option.bind_some]
    simp only [hlast, decide_false]
    decide

/-- A function whose first field has declared no object: it fails at the first use of one, which is
at `return` at the latest. -/
theorem walk_undeclared (first : Field) (hfirst : ¬ first.IsNext) (fs : List Field) :
    (walk [[]] ((first :: fs).flatMap (Field.adding camelize type))).bind
      (walk · (ending (fs.getLastD first).IsNext)) ≠ some [] := by
  intro h
  have hblind : ¬ (Scopes.Sees [[]] .array ∧ Scopes.Sees [[]] .obj) := by decide
  rcases walk_blind camelize type hblind (by simp) (first :: fs) with hnone | ⟨hsome, hfs⟩
  · rw [hnone] at h
    cases h
  · have hlast : ¬ (fs.getLastD first).IsNext := by
      intro hlast
      have hrest : ∀ f ∈ fs, ¬ f.IsNext := fun f hf => hfs f (List.mem_cons_of_mem _ hf)
      exact hfirst (getLastD_notNext fs first hrest hlast).2
    have hnone : walk [[]] (ending false) = none := by decide
    simp only [hsome, Option.bind_some, hlast, decide_false, hnone] at h
    cases h

end

/-! ## 4. Builders -/

section
variable (camelize : Text → Text) (d : StructDef)

theorem returns_append (stmts : List Stmt) : ∀ {tail : List Stmt}, returns tail = true →
    returns (stmts ++ tail) = true := by
  induction stmts with
  | nil =>
    intro tail h
    exact h
  | cons s stmts ih =>
    intro tail h
    have hrest := ih h
    rw [List.cons_append]
    unfold returns
    split
    · rfl
    · next heq =>
      obtain ⟨-, rfl⟩ := List.cons.inj heq
      exact hrest
    · next heq => cases heq

/-- Every builder ends by returning a variable, in its scope or not. -/
theorem StructDef.returns_stmts : returns (d.stmts camelize) = true := by
  have hending : ∀ next, returns (ending next) = true := by decide
  exact returns_append (_ :: (d.first.opening camelize d.name ++
    d.rest.flatMap (Field.adding camelize d.name))) (hending _)

/-- A builder is walked in three parts. -/
theorem StructDef.walk_stmts : walk [] (d.stmts camelize)
    = (walk [[]] (d.first.opening camelize d.name)).bind fun sc =>
        (walk sc (d.rest.flatMap (Field.adding camelize d.name))).bind
          (walk · (ending d.lastField.IsNext)) := by
  have hhead : (Stmt.head (builderName camelize d.name) d.name).check [] = some [[]] :=
    if_pos (by simp [Stmt.uses])
  unfold StructDef.stmts StructDef.body
  rw [walk, hhead, Option.bind_some, walk_append, walk_append, Option.bind_assoc]

/-- The builder of a struct is well formed just for lists and records.  There is a case for each
way in which the first field opens the function, and in each the rest is walked by the lemmas
above. -/
theorem StructDef.wellFormed_iff : WellFormed (d.stmts camelize) ↔ d.Builds := by
  have hscopes : WellFormed (d.stmts camelize) ↔ walk [] (d.stmts camelize) = some [] :=
    ⟨fun h => h.scopes, fun h => ⟨h, d.returns_stmts camelize⟩⟩
  rw [hscopes, d.walk_stmts]
  unfold Field.opening
  rw [walk_append]
  by_cases hcounter : d.first = .counter
  · -- `array` is declared in the function, and `obj` in the loop
    have hopener : walk [[]] (d.first.opener d.name) = some [[.obj], [.array]] := by
      rw [hcounter, Field.opener_counter]
      rfl
    have hnext : ¬ d.first.IsNext := by
      rw [hcounter]
      simp [Field.counter, Field.IsNext]
    have hopens : ¬ d.first.Opens := by
      rw [hcounter]
      exact fun h => h ⟨rfl, rfl⟩
    rw [hopener, Option.bind_some, walk_adds camelize d.name (by simp) (by decide),
      Option.bind_some]
    refine (walk_list camelize d.name d.rest d.first hnext).trans ?_
    constructor
    · intro h
      exact Or.inl ⟨hcounter, h⟩
    · rintro (h | h)
      · exact h.2
      · exact absurd h.1 hopens
  have hlist : ¬ d.IsList := fun h => hcounter h.1
  by_cases hopens : d.first.Opens
  · -- `obj` is declared in the function, and a block is open
    have hopener : walk [[]] (d.first.opener d.name) = some [[], [.obj]] := by
      rw [Field.opener_opens hopens]
      rfl
    rw [hopener, Option.bind_some, walk_adds camelize d.name (by simp) (by decide),
      Option.bind_some]
    refine (walk_record camelize d.name d.first d.rest).trans ?_
    constructor
    · intro h
      exact Or.inr ⟨hopens, h⟩
    · rintro (h | h)
      · exact absurd h hlist
      · exact h.2
  have hnot : ¬ d.Builds := by
    rintro (h | h)
    · exact hlist h
    · exact hopens h.1
  refine iff_of_false ?_ hnot
  by_cases hpointer : d.first = .counterPointer
  · -- `obj` is used where only `array` is declared
    have hopener : walk [[]] (d.first.opener d.name) = some [[], [.array]] := by
      rw [hpointer, Field.opener_counterPointer]
      rfl
    have hadds : walk [[], [.array]] (d.first.adds camelize d.name) = none := by
      rw [hpointer]
      rfl
    rw [hopener, Option.bind_some, hadds]
    simp
  · -- nothing is declared
    have hopener : d.first.opener d.name = [] := by
      unfold Field.opener
      rw [if_neg hcounter, if_neg hpointer, if_neg hopens]
    have hnext : ¬ d.first.IsNext := by
      cases hfirst : d.first with
      | pointer key value =>
        rw [hfirst] at hopens hpointer
        obtain ⟨rfl, rfl⟩ := not_not.mp hopens
        exact absurd rfl hpointer
      | _ => exact id
    have hundeclared := walk_undeclared camelize d.name d.first hnext d.rest
    rw [List.flatMap_cons, walk_append, walk_notNext camelize d.name hnext, Option.bind_assoc]
      at hundeclared
    rw [hopener]
    exact hundeclared

/-- **In a file of structs, the builders of lists and records are well formed, and no others.**
Which of the two a struct is can be seen from its first field and from where it has pointers called
`next`. -/
theorem builders_wellFormed_iff {data : Text} {defs : List StructDef} (h : Reads data defs)
    (hne : defs ≠ []) : ∃ g, generate camelize data = some g ∧
      List.Forall₂ (fun d fn => WellFormed fn ↔ d.Builds) defs (functionsOf g.stmts) := by
  obtain ⟨g, hg, hstmts⟩ := generate_stmts camelize h hne
  refine ⟨g, hg, ?_⟩
  rw [hstmts, functionsOf_builders, List.forall₂_map_right_iff, List.forall₂_same]
  intro d _
  exact d.wellFormed_iff camelize

end

/-- A struct with an array as its first field. -/
def serialText : Text :=
  txt "typedef struct wtp \x7b\n    uint8_t sn[16];\n    uint8_t id;\n\x7d wtp;\n"

def serialDef : StructDef :=
  { name := txt "wtp", first := .array (txt "uint8_t") (txt "sn") (txt "16"),
    rest := [.scalar (txt "uint8_t") (txt "id")] }

theorem builders_wellFormed_iff_serial : ∃ g, generate id serialText = some g ∧
    List.Forall₂ (fun d fn => WellFormed fn ↔ d.Builds) [serialDef] (functionsOf g.stmts) :=
  builders_wellFormed_iff id (by decide +kernel) (by simp)

/-- Its builder uses `obj` and declares none. -/
theorem serial_undeclared : Reads serialText [serialDef] ∧ ∃ g, generate id serialText = some g ∧
    ∃ fn ∈ functionsOf g.stmts, ¬ WellFormed fn := by
  have hreads : Reads serialText [serialDef] := by decide +kernel
  obtain ⟨g, hg, hstmts⟩ := generate_stmts id hreads (by simp)
  refine ⟨hreads, g, hg, serialDef.stmts id, ?_, by decide⟩
  rw [hstmts, functionsOf_builders]
  exact List.mem_singleton_self _

end Capwap.Script
