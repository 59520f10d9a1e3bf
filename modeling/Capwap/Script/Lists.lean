/-
# What the builder of a list builds

A builder is run statement by statement (`execStep`), on structs in a heap: a loop remembers where
it starts, and one that is not entered is skipped.  What the functions it calls make out of their
arguments is a parameter (`Calls`), and so is what a literal stands for: the program that the
builders make together says which calls there are and what they give.  A function that is not well
formed, or that has its parameter's name for something of its own, does not compile and returns
nothing (`Returns`).

The builder of a list goes through the list by `e`, and reads each field from the parameter, which
is the list's first node.  So it returns as many objects as there are nodes, and all of them are
that of the first one (`ListDef.builder_ends`).
-/
import Mathlib.Data.List.Nodup
import Mathlib.Logic.Function.Basic
import Capwap.Script.Scopes
import Capwap.Lib.Loop

namespace Capwap.Script

/-! ## 1. Lists in a heap

The structs of `head.h` are C structs: they have members, which are values of any kind, and a
pointer `next`.  Where they lie is a heap, and a list is a chain of pointers that ends. -/

/-- What the functions called make out of their arguments, and what a literal stands for.  A
function at work is run with any such calls; those of a program are the ones that its functions
give. -/
structure Calls (ν κ : Type) where
  literal : Text → ν
  call : Text → List ν → κ

/-- A struct in memory. -/
structure Node (ν : Type) where
  member : Text → ν
  next : Option Nat

/-- The structs in memory; a pointer is an address, or none. -/
abbrev Nodes (ν : Type) : Type := Nat → Option (Node ν)

/-- From a pointer on, a list of nodes is linked: each node has the pointer to the next, and the
last has none. -/
inductive Linked {ν : Type} (heap : Nodes ν) : Option Nat → List (Node ν) → Prop
  | nil : Linked heap none []
  | cons {a : Nat} {x : Node ν} {xs : List (Node ν)} (hx : heap a = some x)
      (h : Linked heap x.next xs) : Linked heap (some a) (x :: xs)

/-- A JSON object: a value for some of the keys. -/
abbrev JsonObject (κ : Type) : Type := Text → Option κ

/-- What a builder returns: an object, or an array of objects. -/
inductive Json (κ : Type)
  | object (o : JsonObject κ)
  | array (os : List (JsonObject κ))

/-! ## 2. Running a function

A function is a flat list of statements, so a machine that runs one has the rest of the list, and
for the blocks that are open a stack: at the end of a block it goes on, and at the end of a loop it
goes back.  A loop that is over, and a test that fails, skip to the matching brace. -/

/-- A function at work: the statements to come, the blocks that are open, each loop with where it
starts, the name of the parameter, and the variables. -/
structure Exec (κ : Type) where
  code : List Stmt
  blocks : List (Option (List Stmt))
  param : Text
  e : Option Nat
  obj : JsonObject κ
  array : List (JsonObject κ)

section
variable {ν κ : Type}

/-- What follows a block that is not entered; so many blocks have been opened in it.  This is where
C goes on behind the matching brace. -/
def afterBlock : List Stmt → Nat → Option (List Stmt)
  | [], _ => none
  | .close :: code, 0 => some code
  | .close :: code, n + 1 => afterBlock code n
  | .loop :: code, n => afterBlock code (n + 1)
  | .test _ :: code, n => afterBlock code (n + 1)
  | _ :: code, n => afterBlock code n

/-- The pointer that a variable holds; `p` is the argument. -/
def Exec.pointer (s : Exec κ) (p : Option Nat) (x : Text) : Option Nat :=
  if x = txt "e" then s.e else if x = s.param then p else none

def Arg.eval (C : Calls ν κ) (heap : Nodes ν) (p : Option Nat) (s : Exec κ) : Arg → Option ν
  | .member x name => ((s.pointer p x).bind heap).map fun node => node.member name
  | .text t => some (C.literal t)

def Expr.eval (C : Calls ν κ) (heap : Nodes ν) (p : Option Nat) (s : Exec κ) (e : Expr) :
    Option κ :=
  (e.args.mapM (Arg.eval C heap p s)).map (C.call e.method)

/-- One statement.  The result is none where C says nothing, as when a member is read through a
null pointer. -/
def execStep (C : Calls ν κ) (heap : Nodes ν) (p : Option Nat) (s : Exec κ) :
    Step (Exec κ) (Option (Json κ)) :=
  match s.code with
  | [] => .done none
  | .head _ type :: code => .next { s with code := code, param := type }
  | .newArray :: code => .next { s with code := code, array := [] }
  | .cursor x :: code => .next { s with code := code, e := s.pointer p x }
  | .loop :: code =>
    if s.e.isSome then .next { s with code := code, blocks := some s.code :: s.blocks }
    else
      match afterBlock code 0 with
      | some code => .next { s with code := code }
      | none => .done none
  | .newObj :: code => .next { s with code := code, obj := fun _ => none }
  | .test x :: code =>
    if (s.pointer p x).isSome then .next { s with code := code, blocks := none :: s.blocks }
    else
      match afterBlock code 0 with
      | some code => .next { s with code := code }
      | none => .done none
  | .add key value :: code =>
    match value.eval C heap p s with
    | some j => .next { s with code := code, obj := Function.update s.obj key (some j) }
    | none => .done none
  | .push :: code => .next { s with code := code, array := s.array ++ [s.obj] }
  | .next :: code =>
    match s.e.bind heap with
    | some node => .next { s with code := code, e := node.next }
    | none => .done none
  | .close :: code =>
    match s.blocks with
    | some start :: blocks => .next { s with code := start, blocks := blocks }
    | none :: blocks => .next { s with code := code, blocks := blocks }
    | [] => .done none
  | .ret .obj :: _ => .done (some (.object s.obj))
  | .ret .array :: _ => .done (some (.array s.array))

/-- The state before the head of the function; the variables are there before they are declared,
with values that nothing reads. -/
def Exec.start (fn : List Stmt) : Exec κ :=
  { code := fn, blocks := [], param := [], e := none, obj := fun _ => none, array := [] }

/-! ## 3. Functions that compile

The parameter of a builder has the name of its struct, and can hide what the function needs: a
struct called `obj` has a builder in which `obj` is declared and is the parameter too. -/

/-- The names in an expression, apart from the parameter and members. -/
def Expr.identifiers (e : Expr) : List Text :=
  e.method :: e.args.flatMap fun
    | .member _ _ => []
    | .text t => [t]

/-- The names a statement has for what it declares, uses or calls, apart from the parameter. -/
def Stmt.identifiers : Stmt → List Text
  | .newArray => [txt "array", txt "json_object_new_array"]
  | .cursor _ => [txt "e"]
  | .loop => [txt "e"]
  | .newObj => [txt "obj", txt "json_object_new_object"]
  | .add _ value => txt "json_object_object_add" :: txt "obj" :: value.identifiers
  | .push => [txt "json_object_array_add", txt "array", txt "obj"]
  | .next => [txt "e"]
  | .ret v => [v.render]
  | .head _ _ | .test _ | .close => []

/-- The name of a function's parameter. -/
def paramOf : List Stmt → Text
  | .head _ type :: _ => type
  | _ => []

/-- The function compiles: it is well formed, and its parameter hides nothing that it uses. -/
def Compiles (fn : List Stmt) : Prop :=
  WellFormed fn ∧ ∀ s ∈ fn, paramOf fn ∉ s.identifiers

/-- A function, called with `p`, returns a JSON value: it compiles, and its run ends with this
value. -/
def Returns (C : Calls ν κ) (heap : Nodes ν) (p : Option Nat) (fn : List Stmt) (r : Json κ) :
    Prop :=
  Compiles fn ∧ Loop.Ends (execStep C heap p) (Exec.start fn) (some r)

/-! ## 4. Fields of a node

What a field adds is a call with members of the parameter and literals.  So in a given node it has
a value, and the value of the whole struct is the object of these. -/

/-- What an argument stands for when its pointer points to `x`. -/
def Arg.on (C : Calls ν κ) (x : Node ν) : Arg → ν
  | .member _ name => x.member name
  | .text t => C.literal t

def Expr.on (C : Calls ν κ) (x : Node ν) (e : Expr) : κ := C.call e.method (e.args.map (Arg.on C x))

namespace Field

/-- An array of no length whose length is in no other member. -/
def Silent : Field → Prop
  | .array _ value len =>
    len = txt "0" ∧ ¬ (value = txt "rates" ∨ value = txt "ie" ∨ value = txt "key")
  | _ => False

instance : DecidablePred Silent
  | .array _ value len => inferInstanceAs
      (Decidable (len = txt "0" ∧ ¬ (value = txt "rates" ∨ value = txt "ie" ∨ value = txt "key")))
  | .macAddr _ | .macAddrMax _ | .macAddrEth _ | .keyMax _ => isFalse id
  | .scalar _ _ | .pointer _ _ | .bitset _ => isFalse id

/-- What the call written for a field makes in a node, where one is written; a silent field makes
nothing. -/
def made (camelize : Text → Text) (C : Calls ν κ) (x : Node ν) (f : Field) : Option κ :=
  (f.value camelize []).map (Expr.on C x)

/-- The names that its value uses, apart from the parameter and members. -/
def identifiers (camelize : Text → Text) (f : Field) : List Text :=
  match f.value camelize [] with
  | some e => e.identifiers
  | none => []

end Field

/-- A struct that is a list: after the counter the fields of the nodes, and the pointer `next` of
any type.  No two members have one name, as in any C struct. -/
structure ListDef where
  name : Text
  fields : List Field
  nextType : Text
  distinct :
    ((Field.counter :: fields ++ [Field.pointer nextType (txt "next")]).map Field.name).Nodup

namespace ListDef

def struct (l : ListDef) : StructDef :=
  { name := l.name, first := .counter, rest := l.fields ++ [.pointer l.nextType (txt "next")] }

/-- What a node holds. -/
def members (l : ListDef) : List Field := .counter :: l.fields

/-- The struct's name is none of the names that its builder uses. -/
def NameFree (camelize : Text → Text) (l : ListDef) : Prop :=
  l.name ∉ [txt "e", txt "obj", txt "array", txt "json_object_new_array",
    txt "json_object_new_object", txt "json_object_object_add", txt "json_object_array_add"] ∧
  ∀ f ∈ l.members, ¬ f.Silent → l.name ∉ f.identifiers camelize

end ListDef

/-! ## 5. One node

The statements for the fields are run one after the other, and the object grows by one key for
each, unless the field is silent.  Later keys do not change earlier ones, since the names are
distinct. -/

variable (camelize : Text → Text) {C : Calls ν κ} {heap : Nodes ν} {p : Option Nat}

/-- A value is silent, or it is made of members of the parameter and literals. -/
theorem Field.value_cases (type : Text) (f : Field) :
    f.Silent ∧ f.value camelize type = none ∨
      ¬ f.Silent ∧ ∃ (method : Text) (names literals : List Text), f.value camelize type
        = some ⟨method, names.map (.member type) ++ literals.map .text⟩ ∧
          f.value camelize [] = some ⟨method, names.map (.member []) ++ literals.map .text⟩ := by
  cases f with
  | macAddr _ => exact Or.inr ⟨id, _, [txt "macAddr", txt "macLen"], [], rfl, rfl⟩
  | macAddrMax _ => exact Or.inr ⟨id, _, [txt "macAddr", txt "macLen"], [], rfl, rfl⟩
  | macAddrEth _ => exact Or.inr ⟨id, _, [txt "macAddr"], [txt "ETH_ALEN"], rfl, rfl⟩
  | keyMax _ => exact Or.inr ⟨id, _, [txt "key", txt "kLen"], [], rfl, rfl⟩
  | scalar key value => exact Or.inr ⟨id, _, [value], [], rfl, rfl⟩
  | pointer key value => exact Or.inr ⟨id, _, [value], [], rfl, rfl⟩
  | bitset value => exact Or.inr ⟨id, _, [value], [], rfl, rfl⟩
  | array _ value len =>
    unfold Field.Silent Field.value
    by_cases hlen : len = txt "0"
    · simp only [if_pos hlen]
      by_cases hrates : value = txt "rates"
      · simp only [if_pos hrates]
        exact Or.inr ⟨fun h => h.2 (Or.inl hrates), _, [value, txt "rate_num"], [], rfl, rfl⟩
      simp only [if_neg hrates]
      by_cases hie : value = txt "ie"
      · simp only [if_pos hie]
        exact Or.inr ⟨fun h => h.2 (Or.inr (Or.inl hie)), _, [value, txt "ie_len"], [], rfl, rfl⟩
      simp only [if_neg hie]
      by_cases hkey : value = txt "key"
      · simp only [if_pos hkey]
        exact Or.inr ⟨fun h => h.2 (Or.inr (Or.inr hkey)), _, [value, txt "kLen"], [], rfl, rfl⟩
      simp only [if_neg hkey]
      exact Or.inl ⟨⟨hlen, by simp [hrates, hie, hkey]⟩, trivial⟩
    · simp only [if_neg hlen]
      by_cases hsn : value = txt "sn"
      · simp only [if_pos hsn]
        exact Or.inr ⟨fun h => hlen h.1, _, [value], [], rfl, rfl⟩
      simp only [if_neg hsn]
      by_cases hslct : value = txt "slct"
      · simp only [if_pos hslct]
        exact Or.inr ⟨fun h => hlen h.1, _, [value, txt "cnt"], [], rfl, rfl⟩
      simp only [if_neg hslct]
      exact Or.inr ⟨fun h => hlen h.1, _, [value], [len], rfl, rfl⟩

/-- Arguments that have a value. -/
theorem mapM_eval {s : Exec κ} {x : Node ν} : ∀ {args : List Arg},
    (∀ a ∈ args, a.eval C heap p s = some (a.on C x)) →
      args.mapM (Arg.eval C heap p s) = some (args.map (Arg.on C x)) := by
  intro args
  induction args with
  | nil =>
    intro _
    rfl
  | cons a args ih =>
    intro h
    rw [List.mapM_cons, h a List.mem_cons_self, ih fun b hb => h b (List.mem_cons_of_mem _ hb)]
    rfl

/-- What is written for a field is evaluated in the node that the parameter points to: never in the
one that the loop has reached. -/
theorem Field.eval_value {f : Field} (hf : ¬ f.Silent) {s : Exec κ} (hparam : s.param ≠ txt "e")
    {x : Node ν} (hx : p.bind heap = some x) :
    ∃ e t, f.value camelize s.param = some e ∧ f.made camelize C x = some t ∧
      e.eval C heap p s = some t := by
  rcases f.value_cases camelize s.param with ⟨hsilent, -⟩ | ⟨-, method, names, literals, hv, hv'⟩
  · exact absurd hsilent hf
  refine ⟨_, _, hv, by rw [made, hv', Option.map_some], ?_⟩
  have hpointer : s.pointer p s.param = p := by
    unfold Exec.pointer
    rw [if_neg hparam, if_pos rfl]
  have hargs : ∀ a ∈ names.map (Arg.member s.param) ++ literals.map Arg.text,
      a.eval C heap p s = some (a.on C x) := by
    intro a ha
    rcases List.mem_append.mp ha with ha | ha
    · obtain ⟨name, -, rfl⟩ := List.mem_map.mp ha
      simp only [Arg.eval, hpointer, hx, Option.map_some, Arg.on]
    · obtain ⟨t, -, rfl⟩ := List.mem_map.mp ha
      rfl
  unfold Expr.eval
  rw [mapM_eval hargs]
  simp [Expr.on, Function.comp_def, Arg.on]

/-- Nothing is made for a silent field. -/
theorem Field.made_eq_none {x : Node ν} {f : Field} :
    f.made camelize C x = none ↔ f.Silent := by
  unfold Field.made
  rw [Option.map_eq_none_iff]
  rcases f.value_cases camelize [] with ⟨hsilent, hv⟩ | ⟨hnot, method, names, literals, hv, -⟩
  · exact ⟨fun _ => hsilent, fun _ => hv⟩
  · rw [hv]
    exact iff_of_false (Option.some_ne_none _) hnot

/-- A field is added, if something is made for it. -/
def addField (C : Calls ν κ) (x : Node ν) (o : JsonObject κ) (f : Field) : JsonObject κ :=
  match f.made camelize C x with
  | some t => Function.update o f.name (some t)
  | none => o

/-- The object of a node: the fields are added in their order, to an object that may have some
already. -/
def objectOf (C : Calls ν κ) (x : Node ν) (fs : List Field) (o : JsonObject κ) : JsonObject κ :=
  fs.foldl (addField camelize C x) o

theorem addField_other (x : Node ν) (o : JsonObject κ) {f : Field} {key : Text}
    (h : key ≠ f.name) : addField camelize C x o f key = o key := by
  unfold addField
  cases f.made camelize C x with
  | some t => exact Function.update_of_ne h _ _
  | none => rfl

theorem addField_self (x : Node ν) (o : JsonObject κ) (f : Field) :
    addField camelize C x o f f.name = (f.made camelize C x).or (o f.name) := by
  unfold addField
  cases f.made camelize C x with
  | some t => exact Function.update_self ..
  | none => rfl

/-- The key of a field that is not there keeps its value. -/
theorem objectOf_other (x : Node ν) {key : Text} : ∀ (fs : List Field) (o : JsonObject κ),
    key ∉ fs.map Field.name → objectOf camelize C x fs o key = o key := by
  intro fs
  induction fs with
  | nil =>
    intro o _
    rfl
  | cons f fs ih =>
    intro o h
    have hf : key ≠ f.name := fun heq => h (heq ▸ List.mem_cons_self)
    have hfs : key ∉ fs.map Field.name := fun hmem => h (List.mem_cons_of_mem _ hmem)
    exact (ih _ hfs).trans (addField_other camelize x o hf)

/-- With distinct names, each field has its own value. -/
theorem objectOf_field (x : Node ν) : ∀ (fs : List Field) (o : JsonObject κ),
    (fs.map Field.name).Nodup → ∀ f ∈ fs, objectOf camelize C x fs o f.name
      = (f.made camelize C x).or (o f.name) := by
  intro fs
  induction fs with
  | nil => simp
  | cons g fs ih =>
    intro o hnodup f hf
    rw [List.map_cons, List.nodup_cons] at hnodup
    rcases List.mem_cons.mp hf with rfl | hf
    · exact (objectOf_other camelize x fs _ hnodup.1).trans (addField_self camelize x o f)
    · have hne : f.name ≠ g.name := fun heq => hnodup.1 (heq ▸ List.mem_map_of_mem hf)
      refine (ih _ hnodup.2 f hf).trans ?_
      rw [addField_other camelize x o hne]

/-- The statements that add the fields of a node are run in a row, and what follows goes on with
the object of the node. -/
theorem exec_adds {x : Node ν} (hx : p.bind heap = some x) (code : List Stmt) :
    ∀ (fs : List Field) (s : Exec κ), s.param ≠ txt "e" →
      s.code = fs.flatMap (Field.adds camelize s.param) ++ code →
        Loop.Reaches (execStep C heap p) s
          { s with code := code, obj := objectOf camelize C x fs s.obj } := by
  intro fs
  induction fs with
  | nil =>
    intro s _ hcode
    have hs : s = { s with code := code, obj := objectOf camelize C x [] s.obj } := by
      cases s
      simp_all [objectOf]
    exact hs ▸ .refl
  | cons f fs ih =>
    intro s hparam hcode
    rw [List.flatMap_cons, List.append_assoc] at hcode
    by_cases hf : f.Silent
    · have hadds : f.adds camelize s.param = [] := by
        unfold Field.adds
        rcases f.value_cases camelize s.param with ⟨-, hvalue⟩ | ⟨hnot, -⟩
        · rw [hvalue]
          rfl
        · exact absurd hf hnot
      rw [hadds, List.nil_append] at hcode
      have hrest := ih s hparam hcode
      have hobj : objectOf camelize C x (f :: fs) s.obj = objectOf camelize C x fs s.obj := by
        unfold objectOf
        rw [List.foldl_cons, addField, (Field.made_eq_none camelize).mpr hf]
      rw [hobj]
      exact hrest
    · obtain ⟨e, t, hvalue, hmade, heval⟩ := f.eval_value camelize (C := C) hf hparam hx
      have hadds : f.adds camelize s.param = [.add f.name e] := by
        unfold Field.adds
        rw [hvalue]
        rfl
      rw [hadds] at hcode
      let s' : Exec κ := { s with
        code := fs.flatMap (Field.adds camelize s.param) ++ code
        obj := addField camelize C x s.obj f }
      have hstep : execStep C heap p s = .next s' := by
        unfold execStep
        rw [hcode]
        simp only [List.cons_append, List.nil_append, heval, s', addField, hmade]
      exact .head hstep (ih s' hparam rfl)

/-- The identifiers of a field are those of what is written for it. -/
theorem Field.identifiers_eq {f : Field} (hf : ¬ f.Silent) (type : Text) :
    ∃ e, f.value camelize type = some e ∧ e.identifiers = f.identifiers camelize := by
  rcases f.value_cases camelize type with ⟨hsilent, -⟩ | ⟨-, method, names, literals, hv, hv'⟩
  · exact absurd hsilent hf
  · refine ⟨_, hv, ?_⟩
    unfold Field.identifiers
    rw [hv']
    simp [Expr.identifiers, List.flatMap_append, List.flatMap_map]

/-- A name that is none of those that the fields use. -/
theorem adds_free_iff (name : Text) (fs : List Field) :
    (∀ s ∈ fs.flatMap (Field.adds camelize name), name ∉ s.identifiers) ↔
      ∀ f ∈ fs, ¬ f.Silent → name ∉ txt "json_object_object_add" :: txt "obj" ::
        f.identifiers camelize := by
  constructor
  · intro h f hf hsilent
    obtain ⟨e, hvalue, he⟩ := f.identifiers_eq camelize hsilent name
    have hmem : Stmt.add f.name e ∈ fs.flatMap (Field.adds camelize name) := by
      refine List.mem_flatMap.mpr ⟨f, hf, ?_⟩
      simp [Field.adds, hvalue]
    rw [← he]
    exact h _ hmem
  · intro h s hs
    obtain ⟨f, hf, hs⟩ := List.mem_flatMap.mp hs
    obtain ⟨e, hvalue, rfl⟩ := List.mem_map.mp hs
    rw [Option.mem_toList] at hvalue
    rcases f.value_cases camelize name with ⟨-, hnone⟩ | ⟨hsilent, -⟩
    · rw [hnone] at hvalue
      cases hvalue
    · obtain ⟨e', hvalue', he⟩ := f.identifiers_eq camelize hsilent name
      obtain rfl : e' = e := Option.some.inj (hvalue'.symm.trans hvalue)
      have hfree := h f hf hsilent
      rw [← he] at hfree
      exact hfree

/-- Adding fields opens no block. -/
theorem afterBlock_adds (type : Text) (code : List Stmt) : ∀ fs : List Field,
    afterBlock (fs.flatMap (Field.adds camelize type) ++ code) 0 = afterBlock code 0 := by
  intro fs
  induction fs with
  | nil => rfl
  | cons f fs ih =>
    rw [List.flatMap_cons, List.append_assoc]
    unfold Field.adds
    cases f.value camelize type with
    | none => exact ih
    | some e => exact ih

/-! ## 6. A list

The loop is entered once for each node, since `e` goes along the list, and each time it makes the
object of the first node, since the fields are read from the parameter. -/

namespace ListDef

variable (l : ListDef)

/-- The end of the loop, and what follows it. -/
def tailCode : List Stmt := [.push, .next, .close, .ret .array, .close]

/-- The builder from the loop on. -/
def loopCode : List Stmt :=
  .loop :: .newObj :: (l.members.flatMap (Field.adds camelize l.name) ++ tailCode)

/-- The fields of a node are not the pointer `next`. -/
theorem fields_notNext : ∀ f ∈ l.fields, ¬ f.IsNext := by
  intro f hf hnext
  have hname : f.name = txt "next" := by
    cases f with
    | pointer key value => exact hnext
    | _ => exact absurd hnext id
  have hdistinct := l.distinct
  rw [List.map_append, List.nodup_append] at hdistinct
  exact hdistinct.2.2 _ (List.mem_map_of_mem (List.mem_cons_of_mem _ hf)) _
    (by simp [Field.name]) hname

theorem members_nodup : (l.members.map Field.name).Nodup := by
  have hdistinct := l.distinct
  rw [List.map_append, List.nodup_append] at hdistinct
  exact hdistinct.1

theorem struct_isList : l.struct.IsList :=
  ⟨rfl, l.fields, _, rfl, rfl, l.fields_notNext⟩

theorem stmts_eq : l.struct.stmts camelize
    = .head (builderName camelize l.name) l.name :: .newArray :: .cursor l.name ::
        l.loopCode camelize := by
  have hfields : l.fields.flatMap (Field.adding camelize l.name)
      = l.fields.flatMap (Field.adds camelize l.name) := by
    refine List.flatMap_congr fun f hf => ?_
    unfold Field.adding
    rw [if_neg (l.fields_notNext f hf)]
  have hlast : l.struct.lastField = .pointer l.nextType (txt "next") := List.getLastD_concat ..
  unfold StructDef.stmts StructDef.body
  rw [hlast]
  simp only [struct, Field.opening, Field.opener_counter, List.flatMap_append, hfields, loopCode,
    members, List.flatMap_cons, tailCode, List.cons_append, List.nil_append, List.append_assoc]
  rfl

/-- The objects that the builder returns: one for each node, and all of them are that of the
first. -/
def built (C : Calls ν κ) (nodes : List (Node ν)) : List (JsonObject κ) :=
  match nodes.head? with
  | some x₀ => List.replicate nodes.length (objectOf camelize C x₀ l.members fun _ => none)
  | none => []

/-- The loop is over: `e` is null, so its block is skipped, and the array is returned. -/
theorem loop_done (obj : JsonObject κ) (array : List (JsonObject κ)) :
    Loop.Ends (execStep C heap p) ⟨l.loopCode camelize, [], l.name, none, obj, array⟩
      (some (.array array)) := by
  have hskip :
      afterBlock (.newObj :: (l.members.flatMap (Field.adds camelize l.name) ++ tailCode)) 0
        = some [.ret .array, .close] := afterBlock_adds camelize l.name tailCode l.members
  have hstep : execStep C heap p ⟨l.loopCode camelize, [], l.name, none, obj, array⟩
      = .next ⟨[.ret .array, .close], [], l.name, none, obj, array⟩ := by
    simp only [execStep, loopCode, hskip, Option.isSome_none, Bool.false_eq_true, if_false]
  exact Loop.Reaches.ends (.head hstep .refl) (.of_done rfl)

/-- The loop makes the first node's object for every node.  The induction is on the list, from `e`
on. -/
theorem loop_ends (hname : l.name ≠ txt "e") {x₀ : Node ν} (hx₀ : p.bind heap = some x₀)
    {e : Option Nat} {nodes : List (Node ν)} (h : Linked heap e nodes) :
    ∀ (obj : JsonObject κ) (array : List (JsonObject κ)),
      Loop.Ends (execStep C heap p) ⟨l.loopCode camelize, [], l.name, e, obj, array⟩
        (some (.array (array ++
          List.replicate nodes.length (objectOf camelize C x₀ l.members fun _ => none)))) := by
  induction h with
  | nil =>
    intro obj array
    rw [List.length_nil, List.replicate_zero, List.append_nil]
    exact l.loop_done camelize obj array
  | @cons a x xs hx _ ih =>
    intro obj array
    let inner := l.members.flatMap (Field.adds camelize l.name) ++ tailCode
    let o := objectOf camelize C x₀ l.members fun _ => none
    have hloop : execStep C heap p ⟨l.loopCode camelize, [], l.name, some a, obj, array⟩
        = .next ⟨.newObj :: inner, [some (l.loopCode camelize)], l.name, some a, obj, array⟩ := rfl
    have hobj : execStep C heap p
          ⟨.newObj :: inner, [some (l.loopCode camelize)], l.name, some a, obj, array⟩
        = .next ⟨inner, [some (l.loopCode camelize)], l.name, some a, fun _ => none, array⟩ := rfl
    have hadds := exec_adds camelize (C := C) hx₀ tailCode l.members
      ⟨inner, [some (l.loopCode camelize)], l.name, some a, fun _ => none, array⟩ hname rfl
    have hpush : execStep C heap p
          ⟨tailCode, [some (l.loopCode camelize)], l.name, some a, o, array⟩
        = .next ⟨tailCode.tail, [some (l.loopCode camelize)], l.name, some a, o,
            array ++ [o]⟩ := rfl
    have hnext : execStep C heap p
          ⟨tailCode.tail, [some (l.loopCode camelize)], l.name, some a, o, array ++ [o]⟩
        = .next ⟨tailCode.tail.tail, [some (l.loopCode camelize)], l.name, x.next, o,
            array ++ [o]⟩ := by
      simp only [execStep, tailCode, List.tail_cons, Option.bind_some, hx]
    have hclose : execStep C heap p
          ⟨tailCode.tail.tail, [some (l.loopCode camelize)], l.name, x.next, o, array ++ [o]⟩
        = .next ⟨l.loopCode camelize, [], l.name, x.next, o, array ++ [o]⟩ := rfl
    have hround := Loop.Reaches.head hloop (.head hobj
      (hadds.trans (.head hpush (.head hnext (.head hclose .refl)))))
    have hrest := ih o (array ++ [o])
    rw [List.append_assoc, List.singleton_append, ← List.replicate_succ] at hrest
    exact Loop.Reaches.ends hround hrest

/-- The builder of a list returns, for any list that is linked: the run is the head, the rounds of
the loop, and the return. -/
theorem builder_ends (hname : l.name ≠ txt "e") {nodes : List (Node ν)} (h : Linked heap p nodes) :
    Loop.Ends (execStep C heap p) (Exec.start (l.struct.stmts camelize))
      (some (.array (l.built camelize C nodes))) := by
  rw [l.stmts_eq camelize]
  have hpointer : (⟨.cursor l.name :: l.loopCode camelize, [], l.name, none, fun _ => none, []⟩ :
      Exec κ).pointer p l.name = p := by
    unfold Exec.pointer
    rw [if_neg hname, if_pos rfl]
  have hcursor : execStep C heap p
        ⟨.cursor l.name :: l.loopCode camelize, [], l.name, none, fun _ => none, []⟩
      = .next ⟨l.loopCode camelize, [], l.name, p, fun _ => none, []⟩ := by
    simp only [execStep, hpointer]
  have hstart : Loop.Reaches (execStep C heap p) (Exec.start (.head (builderName camelize l.name)
        l.name :: .newArray :: .cursor l.name :: l.loopCode camelize))
      ⟨l.loopCode camelize, [], l.name, p, fun _ => none, []⟩ :=
    .head rfl (.head rfl (.head hcursor .refl))
  refine Loop.Reaches.ends hstart ?_
  cases h with
  | nil => exact l.loop_done camelize _ _
  | @cons a x xs hx h =>
    have hp : (some a).bind heap = some x := hx
    exact l.loop_ends camelize hname hp (.cons hx h) _ _

/-! ## 7. When it compiles -/

/-- A list with a name of its own is not called `e`, which is the name of its cursor. -/
theorem notCursor (hfree : l.NameFree camelize) : l.name ≠ txt "e" :=
  fun h => hfree.1 (h ▸ List.mem_cons_self)

/-- Its builder compiles unless the struct has a name that the builder uses: for a variable, for a
function it calls, or for a literal. -/
theorem compiles_iff : Compiles (l.struct.stmts camelize) ↔ l.NameFree camelize := by
  have hwell : WellFormed (l.struct.stmts camelize) :=
    (l.struct.wellFormed_iff camelize).mpr (Or.inl l.struct_isList)
  have hadds := adds_free_iff camelize l.name l.members
  have hcounter : ¬ Field.counter.Silent := id
  have hparam : paramOf (l.struct.stmts camelize) = l.name := rfl
  have hcode : ∀ s, s ∈ l.struct.stmts camelize ↔
      s = .head (builderName camelize l.name) l.name ∨ s = .newArray ∨ s = .cursor l.name ∨
        s = .loop ∨ s = .newObj ∨ s ∈ l.members.flatMap (Field.adds camelize l.name) ∨
          s ∈ tailCode := by
    intro s
    rw [l.stmts_eq camelize]
    simp only [loopCode, List.mem_cons, List.mem_append]
  unfold Compiles NameFree
  rw [hparam]
  constructor
  · rintro ⟨-, h⟩
    have hfields := hadds.mp fun s hs => h s ((hcode s).mpr (by simp [hs]))
    have hcnt := hfields .counter List.mem_cons_self hcounter
    have hnewArray := h .newArray ((hcode _).mpr (by simp))
    have hloop := h .loop ((hcode _).mpr (by simp))
    have hnewObj := h .newObj ((hcode _).mpr (by simp))
    have hpush := h .push ((hcode _).mpr (by simp [tailCode]))
    simp only [Stmt.identifiers, List.mem_cons, List.not_mem_nil, or_false, not_or]
      at hcnt hnewArray hloop hnewObj hpush
    refine ⟨?_, fun f hf hsilent => ?_⟩
    · simp only [List.mem_cons, List.not_mem_nil, or_false, not_or]
      exact ⟨hloop, hnewObj.1, hnewArray.1, hnewArray.2, hnewObj.2, hcnt.1, hpush.1⟩
    · have hf := hfields f hf hsilent
      simp only [List.mem_cons, not_or] at hf
      exact hf.2.2
  · rintro ⟨hown, hfields⟩
    simp only [List.mem_cons, List.not_mem_nil, or_false, not_or] at hown
    obtain ⟨he, hobj, harray, hnewArray, hnewObj, hobjectAdd, harrayAdd⟩ := hown
    refine ⟨hwell, fun s hs => ?_⟩
    rcases (hcode s).mp hs with rfl | rfl | rfl | rfl | rfl | hs | hs
    · simp [Stmt.identifiers]
    · simp [Stmt.identifiers, harray, hnewArray]
    · simp [Stmt.identifiers, he]
    · simp [Stmt.identifiers, he]
    · simp [Stmt.identifiers, hobj, hnewObj]
    · refine hadds.mpr (fun f hf hsilent => ?_) s hs
      simp only [List.mem_cons, not_or]
      exact ⟨hobjectAdd, hobj, hfields f hf hsilent⟩
    · simp only [tailCode, List.mem_cons, List.not_mem_nil, or_false] at hs
      rcases hs with rfl | rfl | rfl | rfl | rfl <;>
        simp [Stmt.identifiers, Var.render, he, hobj, harray, harrayAdd]

end ListDef

end

/-- A list with one field. -/
def rateText : Text :=
  txt "typedef struct rate \x7b\n    uint16_t cnt;\n    uint8_t bps;\n    rate *next;\n\x7d rate;\n"

def rateDef : ListDef :=
  { name := txt "rate", fields := [.scalar (txt "uint8_t") (txt "bps")], nextType := txt "rate",
    distinct := by decide }

end Capwap.Script
