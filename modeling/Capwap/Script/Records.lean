/-
# What the builder of a record builds

A record's builder makes an empty object, and adds the fields to it if the pointer it is given is
not null.  So it returns an empty object for a null pointer, and for a struct an object with the
struct's fields and nothing else, apart from the silent ones (`RecordDef.builder_ends`).
-/
import Capwap.Script.Lists

namespace Capwap.Script

/-! ## 1. Records

A record is what is left of structs that are no lists: its first field opens a block, and in it the
fields are added one after the other. -/

/-- A struct that is a record: its first field opens a block, and it has no pointer `next` that
would be linked.  No two members have one name.  The name `e` is left to the cursors of lists. -/
structure RecordDef where
  name : Text
  first : Field
  rest : List Field
  opens : first.Opens
  notNext : ∀ f ∈ rest, ¬ f.IsNext
  notLast : ¬ (first.IsNext ∧ rest = [])
  distinct : ((first :: rest).map Field.name).Nodup
  notCursor : name ≠ txt "e"

namespace RecordDef

def struct (r : RecordDef) : StructDef := { name := r.name, first := r.first, rest := r.rest }

def members (r : RecordDef) : List Field := r.first :: r.rest

/-- The record's name is none of the names that its builder uses. -/
def NameFree (camelize : Text → Text) (r : RecordDef) : Prop :=
  r.name ∉ [txt "obj", txt "json_object_new_object", txt "json_object_object_add"] ∧
  ∀ f ∈ r.members, ¬ f.Silent → r.name ∉ f.identifiers camelize

theorem struct_isRecord (r : RecordDef) : r.struct.IsRecord := ⟨r.opens, r.notNext, r.notLast⟩

/-- The first field adds something. -/
theorem first_not_silent (r : RecordDef) : ¬ r.first.Silent := by
  have hopens := r.opens
  intro hsilent
  cases hfirst : r.first with
  | array _ value len =>
    rw [hfirst] at hopens
    exact hopens
  | _ =>
    rw [hfirst] at hsilent
    exact hsilent

end RecordDef

/-! ## 2. The builder

The builder has one block, which is entered if the pointer is not null.  The fields are evaluated
as in a list, by the lemmas about one node. -/

namespace RecordDef

variable {ν κ : Type} (camelize : Text → Text) {C : Calls ν κ} {heap : Nodes ν} {p : Option Nat}
  (r : RecordDef)

/-- What follows the fields. -/
def tailCode : List Stmt := [.close, .ret .obj, .close]

theorem stmts_eq : r.struct.stmts camelize
    = .head (builderName camelize r.name) r.name :: .newObj :: .test r.name ::
        (r.members.flatMap (Field.adds camelize r.name) ++ tailCode) := by
  have hfields : r.rest.flatMap (Field.adding camelize r.name)
      = r.rest.flatMap (Field.adds camelize r.name) := by
    refine List.flatMap_congr fun f hf => ?_
    unfold Field.adding
    rw [if_neg (r.notNext f hf)]
  have hlast : ¬ r.struct.lastField.IsNext := by
    intro hlast
    obtain ⟨hnil, hnext⟩ := getLastD_notNext r.rest r.first r.notNext hlast
    exact r.notLast ⟨hnext, hnil⟩
  have hending : ending r.struct.lastField.IsNext = tailCode := by
    simp [ending, hlast, tailCode]
  unfold StructDef.stmts StructDef.body
  rw [hending]
  simp only [struct, Field.opening, Field.opener_opens r.opens, hfields, members,
    List.flatMap_cons, List.cons_append, List.nil_append, List.append_assoc]

/-- What the builder returns for a pointer: the object of the struct, or an empty one. -/
def built (C : Calls ν κ) : Option (Node ν) → JsonObject κ
  | none => fun _ => none
  | some x => objectOf camelize C x r.members fun _ => none

/-- The builder returns, for a null pointer and for a struct. -/
theorem builder_ends (hp : p = none ∨ (p.bind heap).isSome) :
    Loop.Ends (execStep C heap p) (Exec.start (r.struct.stmts camelize))
      (some (.object (r.built camelize C (p.bind heap)))) := by
  rw [r.stmts_eq camelize]
  let inner := r.members.flatMap (Field.adds camelize r.name) ++ tailCode
  have hpointer : (⟨.test r.name :: inner, [], r.name, none, fun _ => none, []⟩ :
      Exec κ).pointer p r.name = p := by
    unfold Exec.pointer
    rw [if_neg r.notCursor, if_pos rfl]
  have hstart : Loop.Reaches (execStep C heap p)
      (Exec.start (.head (builderName camelize r.name) r.name :: .newObj :: .test r.name :: inner))
      ⟨.test r.name :: inner, [], r.name, none, fun _ => none, []⟩ := .head rfl (.head rfl .refl)
  refine hstart.ends ?_
  rcases hp with rfl | hp
  · have hskip : afterBlock inner 0 = some [.ret .obj, .close] :=
      afterBlock_adds camelize r.name tailCode r.members
    have htest : execStep C heap none
          ⟨.test r.name :: inner, [], r.name, none, fun _ => none, []⟩
        = .next ⟨[.ret .obj, .close], [], r.name, none, fun _ => none, []⟩ := by
      simp only [execStep, hpointer, hskip, Option.isSome_none, Bool.false_eq_true, if_false]
    exact Loop.Reaches.ends (.head htest .refl) (.of_done rfl)
  · obtain ⟨x, hx⟩ := Option.isSome_iff_exists.mp hp
    have hsome : p.isSome = true := by
      cases p with
      | none => cases hx
      | some a => rfl
    have htest : execStep C heap p ⟨.test r.name :: inner, [], r.name, none, fun _ => none, []⟩
        = .next ⟨inner, [none], r.name, none, fun _ => none, []⟩ := by
      simp only [execStep, hpointer, hsome, if_true]
    have hadds := exec_adds camelize (C := C) hx tailCode r.members
      ⟨inner, [none], r.name, none, fun _ => none, []⟩ r.notCursor rfl
    rw [hx]
    exact Loop.Reaches.ends (.head htest (hadds.trans (.head rfl .refl))) (.of_done rfl)

/-! ## 3. When it compiles -/

/-- Its builder compiles unless the struct has a name that the builder uses. -/
theorem compiles_iff : Compiles (r.struct.stmts camelize) ↔ r.NameFree camelize := by
  have hwell : WellFormed (r.struct.stmts camelize) :=
    (r.struct.wellFormed_iff camelize).mpr (Or.inr r.struct_isRecord)
  have hadds := adds_free_iff camelize r.name r.members
  have hparam : paramOf (r.struct.stmts camelize) = r.name := rfl
  have hcode : ∀ s, s ∈ r.struct.stmts camelize ↔
      s = .head (builderName camelize r.name) r.name ∨ s = .newObj ∨ s = .test r.name ∨
        s ∈ r.members.flatMap (Field.adds camelize r.name) ∨ s ∈ tailCode := by
    intro s
    rw [r.stmts_eq camelize]
    simp only [List.mem_cons, List.mem_append]
  unfold Compiles NameFree
  rw [hparam]
  constructor
  · rintro ⟨-, h⟩
    have hfields := hadds.mp fun s hs => h s ((hcode s).mpr (by simp [hs]))
    have hfirst := hfields r.first List.mem_cons_self r.first_not_silent
    have hnewObj := h .newObj ((hcode _).mpr (by simp))
    simp only [Stmt.identifiers, List.mem_cons, List.not_mem_nil, or_false, not_or]
      at hfirst hnewObj
    refine ⟨?_, fun f hf hsilent => ?_⟩
    · simp only [List.mem_cons, List.not_mem_nil, or_false, not_or]
      exact ⟨hnewObj.1, hnewObj.2, hfirst.1⟩
    · have hf := hfields f hf hsilent
      simp only [List.mem_cons, not_or] at hf
      exact hf.2.2
  · rintro ⟨hown, hfields⟩
    simp only [List.mem_cons, List.not_mem_nil, or_false, not_or] at hown
    obtain ⟨hobj, hnewObj, hobjectAdd⟩ := hown
    refine ⟨hwell, fun s hs => ?_⟩
    rcases (hcode s).mp hs with rfl | rfl | rfl | hs | hs
    · simp [Stmt.identifiers]
    · simp [Stmt.identifiers, hobj, hnewObj]
    · simp [Stmt.identifiers]
    · refine hadds.mpr (fun f hf hsilent => ?_) s hs
      simp only [List.mem_cons, not_or]
      exact ⟨hobjectAdd, hobj, hfields f hf hsilent⟩
    · simp only [tailCode, List.mem_cons, List.not_mem_nil, or_false] at hs
      rcases hs with rfl | rfl | rfl <;> simp [Stmt.identifiers, Var.render, hobj]

end RecordDef

end Capwap.Script
