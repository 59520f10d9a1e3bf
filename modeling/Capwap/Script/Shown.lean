/-
# What a builder should show

`interface.js` is to translate a struct into a JSON object, so the builder of a list should return
an array with an object for each node, and that of a record an object with the record's fields.
Here this is asked of the program as it is: it has to compile and to link, so each call written in a
builder is one of a function that is there and gets what that function takes (`CallsTyped`), and
what a call gives is what it gives in the program (`Gives`).  Only the JSON library is taken on
trust: different arguments make different values (`JsonLib.Faithful`).

What is to be shown of a field is its value in the node (`Shown`): a number, a text, the elements of
an array as they lie in memory, or what the builder of the struct gives that it points to.

* `typed_iff`: when the calls written for fields can be compiled;
* `listBuilders_iff`: the builder of a list shows every node just when every field has one value in
  all nodes, and the arrays of the first one are shorter than 256 and consist of bytes;
* `recordBuilders_iff`: the builder of a record shows its struct just when the arrays of the struct
  are such.
-/
import Mathlib.Data.List.Forall2
import Capwap.Script.Program

namespace Capwap.Script

/-! ## 1. Calls that compile

C tells numbers, arrays and pointers to structs apart, and a call of a function that is nowhere does
not link.  That the elements of an array are not those that a function takes is no more than a
warning, and what the function gets then are the bytes. -/

/-- What a member is declared as. -/
inductive CType
  | number
  | array
  | pointer (struct : Text)
deriving DecidableEq

def Kind.ctype : Kind → CType
  | .number => .number
  | .text _ | .array _ _ => .array
  | .struct name => .pointer name

/-- An array is one whether its length is known or not. -/
def Field.ctype : Field → Option CType
  | .array _ _ _ => some .array
  | f => f.kind.map Kind.ctype

/-- An argument is of a type, in a struct with these fields.  Literals are numbers. -/
def Arg.Has (fields : List Field) : Arg → CType → Prop
  | .member _ name, t => ∃ f ∈ fields, f.name = name ∧ f.ctype = some t
  | .text _, t => t = .number

/-- A call of a function that is there, with what it takes. -/
inductive Expr.Typed (fields : List Field) (fns : List (List Stmt)) : Expr → Prop
  | newInt {a : Arg} (ha : a.Has fields .number) :
      Typed fields fns ⟨txt "json_object_new_int", [a]⟩
  | newString {a : Arg} (ha : a.Has fields .array) :
      Typed fields fns ⟨txt "json_object_new_string", [a]⟩
  | buildArray {a n : Arg} (ha : a.Has fields .array) (hn : n.Has fields .number) :
      Typed fields fns (buildArray a n)
  | builder {fn : List Stmt} {a : Arg} (hfn : fn ∈ fns)
      (ha : a.Has fields (.pointer (paramOf fn))) :
      Typed fields fns ⟨functionName fn, [a]⟩

/-- The calls in a function for a struct with these fields. -/
def CallsTyped (fields : List Field) (fns : List (List Stmt)) (fn : List Stmt) : Prop :=
  ∀ key e, Stmt.add key e ∈ fn → e.Typed fields fns

/-- What a field of a kind needs besides itself: the length of an array is a literal or a number of
the struct, and a struct that is pointed to is one of the file. -/
def Kind.Callable (fields : List Field) (defs : List StructDef) : Kind → Prop
  | .number | .text _ => True
  | .array _ length => length.Has fields .number
  | .struct name => name ∈ defs.map StructDef.name

/-- A field of a kind, with what it needs. -/
def Field.Callable (fields : List Field) (defs : List StructDef) (f : Field) : Prop :=
  ∃ k, f.kind = some k ∧ k.Callable fields defs

section
variable {camelize : Text → Text} {fields : List Field} {defs : List StructDef}
  {fns : List (List Stmt)}

/-- With distinct names, a member has the type it is declared with. -/
theorem has_member_iff (hnodup : (fields.map Field.name).Nodup) {f : Field} (hf : f ∈ fields)
    (type : Text) (t : CType) : (Arg.member type f.name).Has fields t ↔ f.ctype = some t := by
  constructor
  · rintro ⟨g, hg, hname, ht⟩
    obtain rfl := List.inj_on_of_nodup_map hnodup hg hf hname
    exact ht
  · intro ht
    exact ⟨f, hf, rfl, ht⟩

theorem typed_buildArray_iff {a n : Arg} :
    (buildArray a n).Typed fields fns ↔ a.Has fields .array ∧ n.Has fields .number := by
  constructor
  · intro h
    generalize he : buildArray a n = e at h
    have hargs : e.args = [a, n] := congrArg Expr.args he.symm
    cases h with
    | newInt => cases hargs
    | newString => cases hargs
    | buildArray ha hn =>
      cases hargs
      exact ⟨ha, hn⟩
    | builder => cases hargs
  · rintro ⟨ha, hn⟩
    exact .buildArray ha hn

/-- A call with one argument takes a number, an array, or a pointer to the struct of a builder. -/
theorem Expr.Typed.argument {method : Text} {a : Arg}
    (h : Expr.Typed fields fns ⟨method, [a]⟩) :
    a.Has fields .number ∨ a.Has fields .array ∨
      ∃ fn ∈ fns, a.Has fields (.pointer (paramOf fn)) := by
  generalize he : (⟨method, [a]⟩ : Expr) = e at h
  have hargs : e.args = [a] := congrArg Expr.args he.symm
  cases h with
  | newInt ha =>
    cases hargs
    exact Or.inl ha
  | newString ha =>
    cases hargs
    exact Or.inr (Or.inl ha)
  | buildArray => cases hargs
  | builder hfn ha =>
    cases hargs
    exact Or.inr (Or.inr ⟨_, hfn, ha⟩)

/-- The call written for a field is typed when the field has what it needs, and only then. -/
theorem Field.typed_iff (hnodup : (fields.map Field.name).Nodup) {f : Field} (hf : f ∈ fields)
    {type : Text} {e : Expr} (he : f.value camelize type = some e) :
    e.Typed fields (builders camelize defs) ↔ f.Callable fields defs := by
  have hself := has_member_iff hnodup hf type
  -- an array, with a length that is the same whatever the struct is called
  have harray : ∀ (elem : Text) (length length' : Arg), f.ctype = some .array →
      e = buildArray (.member type f.name) length → f.kind = some (.array elem length') →
      (length.Has fields .number ↔ length'.Has fields .number) →
        (e.Typed fields (builders camelize defs) ↔ f.Callable fields defs) := by
    intro elem length length' htype heq hk hlength
    rw [heq, typed_buildArray_iff, hself, hlength]
    constructor
    · rintro ⟨-, hn⟩
      exact ⟨_, hk, hn⟩
    · rintro ⟨k, hk', hn⟩
      obtain rfl := Option.some.inj (hk.symm.trans hk')
      exact ⟨htype, hn⟩
  cases f with
  | macAddr elem | macAddrMax elem | macAddrEth elem | keyMax elem =>
    exact harray elem _ _ rfl (Option.some.inj he).symm rfl Iff.rfl
  | array elem value len =>
    have harray := fun length length' => harray elem length length' rfl
    unfold Field.value at he
    simp only at he
    split_ifs at he with h1 h2 h3 h4 h5 h6
    all_goals have he := (Option.some.inj he).symm
    · exact harray _ (.member [] _) he (by rw [Field.kind, if_pos h1, if_pos h2]) Iff.rfl
    · exact harray _ (.member [] _) he
        (by rw [Field.kind, if_pos h1, if_neg h2, if_pos h3]) Iff.rfl
    · exact harray _ (.member [] _) he
        (by rw [Field.kind, if_pos h1, if_neg h2, if_neg h3, if_pos h4]) Iff.rfl
    · rw [he]
      exact iff_of_true (.newString ((hself _).mpr rfl))
        ⟨.text elem, by rw [Field.kind, if_neg h1, if_pos h5], trivial⟩
    · exact harray _ (.member [] _) he
        (by rw [Field.kind, if_neg h1, if_neg h5, if_pos h6]) Iff.rfl
    · exact harray _ (.text len) he (by rw [Field.kind, if_neg h1, if_neg h5, if_neg h6]) Iff.rfl
  | bitset value =>
    obtain rfl := Option.some.inj he
    exact iff_of_true (.newInt ((hself _).mpr rfl)) ⟨.number, rfl, trivial⟩
  | scalar key value =>
    obtain rfl := Option.some.inj he
    constructor
    · intro h
      have hkey : key ∈ numberTypes := by
        by_contra hnot
        have hkind : (Field.scalar key value).kind = none := if_neg hnot
        have hnone : (Field.scalar key value).ctype = none := by
          show (Field.scalar key value).kind.map Kind.ctype = none
          rw [hkind, Option.map_none]
        rw [hnone] at hself
        rcases h.argument with h | h | ⟨fn, -, h⟩ <;> exact absurd ((hself _).mp h) (by simp)
      exact ⟨.number, if_pos hkey, trivial⟩
    · rintro ⟨k, hk, -⟩
      have hkey : key ∈ numberTypes := by
        by_contra hnot
        have hnone : (Field.scalar key value).kind = none := if_neg hnot
        rw [hnone] at hk
        cases hk
      have hnumber : (Field.scalar key value).kind = some .number := if_pos hkey
      rw [getNewMethod_number camelize hkey]
      refine .newInt ((hself _).mpr ?_)
      show (Field.scalar key value).kind.map Kind.ctype = some .number
      rw [hnumber]
      rfl
  | pointer key value =>
    obtain rfl := Option.some.inj he
    have hkind : (Field.pointer key value).kind = (structName key).map .struct := rfl
    have htype : (Field.pointer key value).ctype = (structName key).map .pointer := by
      show (Field.pointer key value).kind.map Kind.ctype = _
      rw [hkind, Option.map_map]
      rfl
    rw [htype] at hself
    unfold Field.Callable
    rw [hkind]
    cases hname : structName key with
    | none =>
      rw [hname] at hself
      refine iff_of_false (fun h => ?_) (by simp)
      rcases h.argument with h | h | ⟨fn, -, h⟩ <;> exact absurd ((hself _).mp h) (by simp)
    | some name =>
      rw [hname] at hself
      rw [getNewMethod_struct camelize hname]
      constructor
      · intro h
        refine ⟨.struct name, rfl, ?_⟩
        rcases h.argument with h | h | ⟨fn, hfn, h⟩
        · exact absurd ((hself _).mp h) (by simp)
        · exact absurd ((hself _).mp h) (by simp)
        · obtain ⟨d, hd, rfl⟩ := List.mem_map.mp hfn
          have heq : name = d.name := CType.pointer.inj (Option.some.inj ((hself _).mp h))
          exact heq ▸ List.mem_map_of_mem hd
      · rintro ⟨k, hk, hmem⟩
        obtain rfl := Option.some.inj hk
        obtain ⟨d, hd, rfl⟩ := List.mem_map.mp hmem
        exact .builder (List.mem_map_of_mem (f := StructDef.stmts camelize) hd)
          ((hself _).mpr rfl)

/-- The calls written for fields are typed when the fields have what they need, and only then. -/
theorem typed_iff (hnodup : (fields.map Field.name).Nodup) {fs : List Field} (hfs : fs ⊆ fields)
    (type : Text) : CallsTyped fields (builders camelize defs)
        (fs.flatMap (Field.adds camelize type)) ↔
      ∀ f ∈ written fs, f.Callable fields defs := by
  constructor
  · intro h f hf
    obtain ⟨hf, hsilent⟩ := mem_written.mp hf
    obtain ⟨e, he, -⟩ := f.identifiers_eq camelize hsilent type
    refine (f.typed_iff hnodup (hfs hf) he).mp (h f.name e ?_)
    exact List.mem_flatMap.mpr ⟨f, hf, by simp [Field.adds, he]⟩
  · intro h key e hmem
    obtain ⟨f, hf, he⟩ := List.mem_flatMap.mp hmem
    obtain ⟨e', hvalue, heq⟩ := List.mem_map.mp he
    rw [Option.mem_toList] at hvalue
    obtain ⟨-, rfl⟩ := Stmt.add.inj heq
    have hsilent : ¬ f.Silent := by
      intro hs
      rcases f.value_cases camelize type with ⟨-, hnone⟩ | ⟨hnot, -⟩
      · rw [hnone] at hvalue
        cases hvalue
      · exact hnot hs
    exact (f.typed_iff hnodup (hfs hf) hvalue).mpr (h f (mem_written.mpr ⟨hf, hsilent⟩))

end

/-! ## 2. Values of fields

The value of a field is said of the node and of the memory, and not of what the builder does.  Only
a pointer to a struct has as its value what another builder gives. -/

/-- What the library is trusted with: different arguments make different values. -/
structure JsonLib.Faithful {κ : Type} (lib : JsonLib κ) : Prop where
  newInt : Function.Injective lib.newInt
  newArray : Function.Injective lib.newArray
  newObject : Function.Injective lib.newObject

section
variable {κ : Type}

/-- The JSON value of a field in a node. -/
inductive Shown (camelize : Text → Text) (M : Memory) (lib : JsonLib κ) (literal : Text → Value)
    (heap : Nodes Value) (fns : List (List Stmt)) (x : Node Value) (f : Field) : κ → Prop
  | number {n : Int} (hk : f.kind = some .number) (hv : x.member f.name = .number n) :
      Shown camelize M lib literal heap fns x f (lib.newInt n)
  | text {type : Text} {bs : List UInt8} (hk : f.kind = some (.text type))
      (hv : x.member f.name = .bytes bs) (ht : (Reading.plain M).text type) :
      Shown camelize M lib literal heap fns x f (lib.newString bs)
  | array {type : Text} {len : Arg} {bs : List UInt8} {n : Int} {vs : List Int}
      (hk : f.kind = some (.array type len)) (hv : x.member f.name = .bytes bs)
      (hn : len.of literal x = .number n) (hvs : (Reading.plain M).array type bs n vs) :
      Shown camelize M lib literal heap fns x f (lib.newArray (vs.map lib.newInt))
  | pointer {name : Text} {p : Option Nat} {t : κ} (hk : f.kind = some (.struct name))
      (hv : x.member f.name = .pointer p)
      (h : Gives lib literal heap fns (builderName camelize name) [.pointer p] t) :
      Shown camelize M lib literal heap fns x f t

/-- An array is shorter than 256, and its elements are its bytes. -/
def AsBytes (M : Memory) (literal : Text → Value) (x : Node Value) (f : Field) : Prop :=
  ∀ type len bs n, f.kind = some (.array type len) → x.member f.name = .bytes bs →
    len.of literal x = .number n →
      n < 256 ∧ (M.elements type bs).take n.toNat
        = (bs.take n.toNat).map fun b => (b.toNat : Int)

/-- An array of `uint8_t` is one when it is short and all there. -/
theorem asBytes_uint8 (M : Memory) {literal : Text → Value} {x : Node Value} {f : Field} {len : Arg}
    (hk : f.kind = some (.array (txt "uint8_t") len))
    (hn : ∀ n, len.of literal x = .number n → n < 256) : AsBytes M literal x f := by
  intro type len' bs n hk' _ hlen
  obtain ⟨rfl, rfl⟩ := Kind.array.inj (Option.some.inj (hk.symm.trans hk'))
  exact ⟨hn n hlen, by rw [M.uint8, List.map_take]⟩

variable {camelize : Text → Text} {M : Memory} {lib : JsonLib κ} {literal : Text → Value}
  {heap : Nodes Value} {defs : List StructDef} {fns : List (List Stmt)} {p : Option Nat}
  {x : Node Value} {f : Field} {t : κ}

theorem Shown.not_silent (h : Shown camelize M lib literal heap fns x f t) : ¬ f.Silent := by
  cases h with
  | number hk => exact f.not_silent_of_kind hk
  | text hk => exact f.not_silent_of_kind hk
  | array hk => exact f.not_silent_of_kind hk
  | pointer hk => exact f.not_silent_of_kind hk

/-- A short array of bytes is read as it is built. -/
theorem asBuilt_of_plain {type : Text} {bs : List UInt8} {n : Int} {vs : List Int}
    (h : (Reading.plain M).array type bs n vs) (hn : n < 256)
    (hbytes : (M.elements type bs).take n.toNat
      = (bs.take n.toNat).map fun b => (b.toNat : Int)) :
    Reading.asBuilt.array type bs n vs := by
  obtain ⟨h0, hle, rfl⟩ := h
  have hmod : n % 256 = n := Int.emod_eq_of_lt h0 hn
  have hlength := congrArg List.length hbytes
  rw [List.length_take, List.length_map, List.length_take] at hlength
  refine ⟨?_, ?_⟩
  · rw [hmod]
    omega
  · rw [hmod, hbytes]

/-- The call written for a field gives its value, if an array consists of bytes. -/
theorem Shown.gives (h : Shown camelize M lib literal heap fns x f t)
    (hbytes : AsBytes M literal x f) : FieldGives camelize lib literal heap fns x f t := by
  cases h with
  | number hk hv =>
    refine FieldGives.of_kind camelize hk ?_
    simp only [Kind.value, List.map_cons, List.map_nil, Arg.of, hv]
    exact .newInt _
  | text hk hv ht =>
    refine FieldGives.of_kind camelize hk ?_
    simp only [Kind.value, List.map_cons, List.map_nil, Arg.of, hv]
    exact .newString _
  | array hk hv hn hvs =>
    refine FieldGives.of_kind camelize hk ?_
    simp only [Kind.value, buildArray, List.map_cons, List.map_nil, hn]
    simp only [Arg.of, hv]
    obtain ⟨hlt, hsame⟩ := hbytes _ _ _ _ hk hv hn
    exact .of_array (asBuilt_of_plain hvs hlt hsame)
  | pointer hk hv hgives =>
    refine FieldGives.of_kind camelize hk ?_
    simp only [Kind.value, List.map_cons, List.map_nil, Arg.of, hv]
    exact hgives

/-- The loop of `buildArray` reads no byte behind the array. -/
theorem arrayLoop_le {macAddr : List UInt8} : ∀ {n i : Nat} {ts : List κ},
    arrayLoop lib macAddr n i = some ts → n = 0 ∨ i + n ≤ macAddr.length := by
  intro n
  induction n with
  | zero =>
    intro i ts _
    exact Or.inl rfl
  | succ n ih =>
    intro i ts h
    obtain ⟨b, hb, h⟩ := Option.bind_eq_some_iff.mp h
    obtain ⟨rest, hrest, -⟩ := Option.bind_eq_some_iff.mp h
    have hi := (List.getElem?_eq_some_iff.mp hb).1
    rcases ih hrest with rfl | hle <;> exact Or.inr (by omega)

/-- What a call of `buildArray` gives is the array as it is built. -/
theorem Gives.array_inv {bs : List UInt8} {n : Int}
    (h : Gives lib literal heap fns (txt "buildArray") [.bytes bs, .number n] t) (type : Text) :
    ∃ vs, Reading.asBuilt.array type bs n vs ∧ t = lib.newArray (vs.map lib.newInt) := by
  generalize txt "buildArray" = f at h
  cases h with
  | buildArray h =>
    obtain ⟨ts, hts, rfl⟩ := Option.map_eq_some_iff.mp h
    have hle : (n % 256).toNat ≤ bs.length := by
      rcases arrayLoop_le hts with h0 | hle <;> omega
    rw [arrayLoop_eq lib bs _ 0 (by omega)] at hts
    refine ⟨_, ⟨hle, rfl⟩, ?_⟩
    rw [← Option.some.inj hts]
    simp [Function.comp_def]

/-- Where the call written for a field gives its value, an array consists of bytes. -/
theorem asBytes_of_gives (hlib : lib.Faithful) (h : Shown camelize M lib literal heap fns x f t)
    (hgives : FieldGives camelize lib literal heap fns x f t) : AsBytes M literal x f := by
  intro type len bs n hk hv hn
  obtain ⟨e, he, hgives⟩ := hgives
  obtain rfl := Option.some.inj (he.symm.trans (Field.value_of_kind camelize hk))
  simp only [Kind.value, buildArray, List.map_cons, List.map_nil, hn] at hgives
  simp only [Arg.of, hv] at hgives
  obtain ⟨ws, ⟨hwle, rfl⟩, rfl⟩ := hgives.array_inv type
  generalize ht : lib.newArray _ = t at h
  cases h with
  | number hk' =>
    rw [hk] at hk'
    cases hk'
  | text hk' =>
    rw [hk] at hk'
    cases hk'
  | pointer hk' =>
    rw [hk] at hk'
    cases hk'
  | @array type' len' bs' n' vs hk' hv' hn' hvs =>
    obtain ⟨rfl, rfl⟩ := Kind.array.inj (Option.some.inj (hk.symm.trans hk'))
    obtain rfl := Value.bytes.inj (hv.symm.trans hv')
    obtain rfl := Value.number.inj (hn.symm.trans hn')
    obtain ⟨h0, hle, rfl⟩ := hvs
    have hsame := (List.map_injective_iff.mpr hlib.newInt) (hlib.newArray ht)
    -- both have the length that they are told
    have hlength := congrArg List.length hsame
    rw [List.length_map, List.length_take, List.length_take] at hlength
    have hlt : n < 256 := by omega
    have hmod : n % 256 = n := Int.emod_eq_of_lt h0 hlt
    rw [hmod] at hsame
    exact ⟨hlt, hsame.symm⟩

/-- Values for fields with distinct names are values for the names. -/
theorem exists_named {P : Field → κ → Prop} (t₀ : κ) : ∀ {fs : List Field},
    (fs.map Field.name).Nodup → (∀ f ∈ fs, ∃ t, P f t) →
      ∃ value : Text → κ, ∀ f ∈ fs, P f (value f.name) := by
  intro fs
  induction fs with
  | nil =>
    intro _ _
    exact ⟨fun _ => t₀, by simp⟩
  | cons f fs ih =>
    intro hnodup h
    rw [List.map_cons, List.nodup_cons] at hnodup
    obtain ⟨value, hvalue⟩ := ih hnodup.2 fun g hg => h g (List.mem_cons_of_mem _ hg)
    obtain ⟨t, ht⟩ := h f List.mem_cons_self
    refine ⟨Function.update value f.name t, fun g hg => ?_⟩
    rcases List.mem_cons.mp hg with rfl | hg
    · rw [Function.update_self]
      exact ht
    · have hne : g.name ≠ f.name := fun heq => hnodup.1 (heq ▸ List.mem_map_of_mem hg)
      rw [Function.update_of_ne hne]
      exact hvalue g hg

theorem keyed_name {fs : List Field} (hf : f ∈ fs) (value : Text → κ) :
    keyed fs value f.name = some (value f.name) := if_pos (List.mem_map_of_mem hf)

end

/-! ## 3. Programs that link -/

/-- The builders have names of their own, and none has that of `buildArray`. -/
def NamesApart (camelize : Text → Text) (defs : List StructDef) : Prop :=
  (txt "buildArray" :: defs.map fun d => builderName camelize d.name).Nodup

section
variable (camelize : Text → Text) {defs : List StructDef}

theorem linkable_iff : Linkable (builders camelize defs) ↔ NamesApart camelize defs := by
  have hnames : (builders camelize defs).map functionName
      = defs.map fun d => builderName camelize d.name := by
    rw [List.map_map]
    rfl
  -- what the functions of the library are called does not start with `build`
  have hother : ∀ (type : Text) (c : Char) (rest : Text), c ≠ 'b' →
      builderName camelize type ≠ c :: rest := by
    intro type c rest hc heq
    exact hc (List.cons.inj heq).1.symm
  unfold NamesApart
  rw [List.nodup_cons, ← hnames]
  constructor
  · intro h
    refine ⟨fun hmem => ?_, h.names⟩
    obtain ⟨fn, hfn, heq⟩ := List.mem_map.mp hmem
    exact h.own fn hfn (heq ▸ by simp)
  · rintro ⟨hnot, hnodup⟩
    refine ⟨hnodup, fun fn hfn hmem => ?_⟩
    obtain ⟨d, hd, rfl⟩ := List.mem_map.mp hfn
    simp only [List.mem_cons, List.not_mem_nil, or_false] at hmem
    rcases hmem with heq | heq | heq
    · exact hother d.name 'j' _ (by decide) heq
    · exact hother d.name 'j' _ (by decide) heq
    · exact hnot (List.mem_map.mpr ⟨_, hfn, heq⟩)

/-! ## 4. Lists -/

/-- The objects are those of the nodes: each has, for every field, its value in the node. -/
def ShowsNodes {κ : Type} (M : Memory) (lib : JsonLib κ) (literal : Text → Value)
    (heap : Nodes Value) (fns : List (List Stmt)) (fs : List Field) (os : List (JsonObject κ))
    (nodes : List (Node Value)) : Prop :=
  List.Forall₂ (fun o x => ∀ f ∈ fs, ∃ t, o f.name = some t ∧
    Shown camelize M lib literal heap fns x f t) os nodes

/-- Every node of a list is shown as the first one is. -/
theorem forall₂_replicate {α β : Type} {R : α → β → Prop} {a : α} : ∀ {bs : List β},
    List.Forall₂ R (List.replicate bs.length a) bs ↔ ∀ b ∈ bs, R a b := by
  intro bs
  induction bs with
  | nil => simp
  | cons b bs ih =>
    rw [List.length_cons, List.replicate_succ, List.forall₂_cons, ih, List.forall_mem_cons]

variable {κ : Type} {M : Memory} {lib : JsonLib κ} {literal : Text → Value} {heap : Nodes Value}
  {p : Option Nat}

/-- What the builder of a list gives shows its nodes just when every field has one value in all of
them, which the bytes of the first one make. -/
theorem ListDef.shows_iff (hlib : lib.Faithful) (hl : Linkable (builders camelize defs))
    (l : ListDef) (hd : l.struct ∈ defs) {nodes : List (Node Value)}
    (hlinked : Linked heap p nodes) :
    (∃ os, Gives lib literal heap (builders camelize defs) (builderName camelize l.name)
        [.pointer p] (lib.newArray (os.map lib.newObject)) ∧
        ShowsNodes camelize M lib literal heap (builders camelize defs) l.members os nodes) ↔
      l.NameFree camelize ∧ ∀ x₀ ∈ nodes.head?, ∀ f ∈ l.members, AsBytes M literal x₀ f ∧
        ∃ t, ∀ x ∈ nodes, Shown camelize M lib literal heap (builders camelize defs) x f t := by
  constructor
  · rintro ⟨os, hgives, hshows⟩
    obtain ⟨hfree, value, hvalue, heq⟩ := (l.gives_iff camelize hl hd hlinked _).mp hgives
    refine ⟨hfree, fun x₀ hx₀ f hf => ?_⟩
    rw [← List.map_replicate] at heq
    obtain rfl := List.map_injective_iff.mpr hlib.newObject (hlib.newArray heq)
    have hshows := forall₂_replicate.mp hshows
    have hmem : x₀ ∈ nodes := List.mem_of_mem_head? hx₀
    obtain ⟨t, -, hshown⟩ := hshows x₀ hmem f hf
    have hwritten := mem_written.mpr ⟨hf, hshown.not_silent⟩
    -- one value is shown for all nodes
    have hall : ∀ x ∈ nodes, Shown camelize M lib literal heap (builders camelize defs) x f
        (value f.name) := by
      intro x hx
      obtain ⟨t, ht, hshown⟩ := hshows x hx f hf
      rw [keyed_name hwritten] at ht
      exact Option.some.inj ht ▸ hshown
    exact ⟨asBytes_of_gives hlib (hall x₀ hmem) (hvalue x₀ hx₀ f hwritten), _, hall⟩
  · rintro ⟨hfree, hsame⟩
    cases hx₀ : nodes.head? with
    | none =>
      obtain rfl := List.head?_eq_none_iff.mp hx₀
      refine ⟨[], (l.gives_iff camelize hl hd hlinked _).mpr
        ⟨hfree, fun _ => lib.newInt 0, by simp, rfl⟩, .nil⟩
    | some x₀ =>
      have hmem : x₀ ∈ nodes := List.mem_of_mem_head? hx₀
      obtain ⟨value, hvalue⟩ := exists_named (lib.newInt 0) l.members_nodup
        fun f hf => (hsame x₀ hx₀ f hf).2
      refine ⟨List.replicate nodes.length (keyed (written l.members) value), ?_, ?_⟩
      · refine (l.gives_iff camelize hl hd hlinked _).mpr ⟨hfree, value, ?_, by
          rw [List.map_replicate]⟩
        intro x hx f hf
        obtain rfl := Option.some.inj (hx₀.symm.trans hx)
        have hf := (mem_written.mp hf).1
        exact (hvalue f hf x₀ hmem).gives (hsame x₀ hx₀ f hf).1
      · refine forall₂_replicate.mpr fun x hx f hf => ?_
        have hwritten := mem_written.mpr ⟨hf, (hvalue f hf x₀ hmem).not_silent⟩
        exact ⟨value f.name, keyed_name hwritten value, hvalue f hf x hx⟩

/-- The builder of a list compiles as far as its calls go. -/
theorem ListDef.typed_iff (l : ListDef) :
    CallsTyped l.struct.fields (builders camelize defs) (l.struct.stmts camelize) ↔
      ∀ f ∈ written l.members, f.Callable l.struct.fields defs := by
  have hsub : l.members ⊆ l.struct.fields := by
    intro f hf
    rcases List.mem_cons.mp hf with rfl | hf
    · exact List.mem_cons_self
    · exact List.mem_cons_of_mem _ (List.mem_append_left _ hf)
  have hadds : CallsTyped l.struct.fields (builders camelize defs)
      (l.members.flatMap (Field.adds camelize l.name)) ↔ _ :=
    Script.typed_iff l.distinct hsub l.name
  rw [l.stmts_eq camelize]
  refine Iff.trans ?_ hadds
  simp [CallsTyped, ListDef.loopCode, ListDef.tailCode]

/-- **What the builders of lists show.**  In a file of structs: the program links, the builder's
calls compile, and it gives an array with the values of every node, just when the structs have names
apart and the list's is free, its fields have what they need, and every field has one value in all
nodes, as an array of less than 256 bytes if it is one. -/
theorem listBuilders_iff {data : Text} (h : Reads data defs) (hne : defs ≠ []) :
    ∃ g, generate camelize data = some g ∧
      List.Forall₂ (fun d fn => ∀ l : ListDef, d = l.struct →
        ∀ (M : Memory) (lib : JsonLib κ), lib.Faithful → ∀ (literal : Text → Value)
          (heap : Nodes Value) (p : Option Nat) (nodes : List (Node Value)), Linked heap p nodes →
            ((Linkable (functionsOf g.stmts) ∧ CallsTyped d.fields (functionsOf g.stmts) fn ∧
                ∃ os, Gives lib literal heap (functionsOf g.stmts) (functionName fn) [.pointer p]
                    (lib.newArray (os.map lib.newObject)) ∧
                  ShowsNodes camelize M lib literal heap (functionsOf g.stmts) l.members os
                    nodes) ↔
              NamesApart camelize defs ∧ l.NameFree camelize ∧
                (∀ f ∈ written l.members, f.Callable d.fields defs) ∧
                ∀ x₀ ∈ nodes.head?, ∀ f ∈ l.members, AsBytes M literal x₀ f ∧
                  ∃ t, ∀ x ∈ nodes,
                    Shown camelize M lib literal heap (functionsOf g.stmts) x f t))
        defs (functionsOf g.stmts) := by
  obtain ⟨g, hg, hstmts⟩ := generate_stmts camelize h hne
  refine ⟨g, hg, ?_⟩
  rw [hstmts, functionsOf_builders, List.forall₂_map_right_iff, List.forall₂_same]
  rintro _ hd l rfl M lib hlib literal heap p nodes hlinked
  rw [l.typed_iff, ← linkable_iff]
  constructor
  · rintro ⟨hl, htyped, hos⟩
    obtain ⟨hfree, hsame⟩ := (l.shows_iff camelize hlib hl hd hlinked).mp hos
    exact ⟨hl, hfree, htyped, hsame⟩
  · rintro ⟨hl, hfree, htyped, hsame⟩
    exact ⟨hl, htyped, (l.shows_iff camelize hlib hl hd hlinked).mpr ⟨hfree, hsame⟩⟩

/-! ## 5. Records -/

/-- The object is that of the node that the pointer points to: each field has its value, and there
is no other key.  For a null pointer it is empty. -/
def ShowsRecord (M : Memory) (lib : JsonLib κ) (literal : Text → Value) (heap : Nodes Value)
    (fns : List (List Stmt)) (fs : List Field) (o : JsonObject κ) : Option (Node Value) → Prop
  | none => ∀ key, o key = none
  | some x => (∀ f ∈ fs, ∃ t, o f.name = some t ∧ Shown camelize M lib literal heap fns x f t) ∧
      ∀ key, key ∉ fs.map Field.name → o key = none

/-- What the builder of a record gives shows the struct just when every field has a value, which its
bytes make. -/
theorem RecordDef.shows_iff (hlib : lib.Faithful) (hl : Linkable (builders camelize defs))
    (r : RecordDef) (hd : r.struct ∈ defs) (hp : p = none ∨ (p.bind heap).isSome) :
    (∃ o, Gives lib literal heap (builders camelize defs) (builderName camelize r.name)
        [.pointer p] (lib.newObject o) ∧ ShowsRecord camelize M lib literal heap
          (builders camelize defs) r.members o (p.bind heap)) ↔
      r.NameFree camelize ∧ ∀ x, p.bind heap = some x → ∀ f ∈ r.members, AsBytes M literal x f ∧
        ∃ t, Shown camelize M lib literal heap (builders camelize defs) x f t := by
  have hgives : ∀ t, Gives lib literal heap (builders camelize defs)
      (builderName camelize r.name) [.pointer p] t ↔ _ := r.gives_iff camelize hl hd hp
  cases hx : p.bind heap with
  | none =>
    rw [hx] at hgives
    constructor
    · rintro ⟨o, hgiven, -⟩
      exact ⟨((hgives _).mp hgiven).1, by simp⟩
    · rintro ⟨hfree, -⟩
      exact ⟨fun _ => none, (hgives _).mpr ⟨hfree, fun _ => lib.newInt 0, by simp, rfl⟩,
        fun _ => rfl⟩
  | some x =>
    rw [hx] at hgives
    constructor
    · rintro ⟨o, hgiven, hshows, -⟩
      obtain ⟨hfree, value, hvalue, heq⟩ := (hgives _).mp hgiven
      refine ⟨hfree, ?_⟩
      rintro _ ⟨⟩ f hf
      obtain rfl := hlib.newObject heq
      obtain ⟨t, ht, hshown⟩ := hshows f hf
      have hwritten := mem_written.mpr ⟨hf, hshown.not_silent⟩
      obtain rfl : value f.name = t := Option.some.inj ((keyed_name hwritten value).symm.trans ht)
      exact ⟨asBytes_of_gives hlib hshown (hvalue x rfl f hwritten), _, hshown⟩
    · rintro ⟨hfree, hall⟩
      obtain ⟨value, hvalue⟩ := exists_named (lib.newInt 0) r.distinct
        fun f hf => (hall x rfl f hf).2
      have hwritten : written r.members = r.members :=
        List.filter_eq_self.mpr fun f hf => by simpa using (hvalue f hf).not_silent
      refine ⟨keyed r.members value, (hgives _).mpr ⟨hfree, value, ?_, ?_⟩, ?_, ?_⟩
      · rintro _ ⟨⟩ f hf
        have hf := (mem_written.mp hf).1
        exact (hvalue f hf).gives (hall x rfl f hf).1
      · rw [hwritten]
        rfl
      · intro f hf
        exact ⟨_, keyed_name hf value, hvalue f hf⟩
      · intro key hkey
        exact if_neg hkey

/-- The builder of a record compiles as far as its calls go. -/
theorem RecordDef.typed_iff (r : RecordDef) :
    CallsTyped r.struct.fields (builders camelize defs) (r.struct.stmts camelize) ↔
      ∀ f ∈ written r.members, f.Callable r.struct.fields defs := by
  have hadds : CallsTyped r.struct.fields (builders camelize defs)
      (r.members.flatMap (Field.adds camelize r.name)) ↔ _ :=
    Script.typed_iff r.distinct (List.Subset.refl _) r.name
  rw [r.stmts_eq camelize]
  refine Iff.trans ?_ hadds
  simp [CallsTyped, RecordDef.tailCode]

end

/-! ## 6. Trees

JSON values as trees, and what builders show of some nodes with them. -/

inductive JsonTree
  | int (n : Int)
  | string (bs : List UInt8)
  | array (ts : List JsonTree)
  | object (o : Text → Option JsonTree)

def trees : JsonLib JsonTree :=
  { newInt := .int, newString := .string, newArray := .array, newObject := .object }

theorem trees_faithful : trees.Faithful where
  newInt _ _ h := JsonTree.int.inj h
  newArray _ _ h := JsonTree.array.inj h
  newObject _ _ h := JsonTree.object.inj h

section
variable {κ : Type} {camelize : Text → Text} {M : Memory} {lib : JsonLib κ} {literal : Text → Value}
  {heap : Nodes Value} {fns : List (List Stmt)} {x : Node Value} {f : Field} {t : κ}

theorem Shown.number_inv (h : Shown camelize M lib literal heap fns x f t)
    (hk : f.kind = some .number) {n : Int} (hv : x.member f.name = .number n) :
    t = lib.newInt n := by
  cases h with
  | number hk' hv' => rw [Value.number.inj (hv.symm.trans hv')]
  | text hk' => cases hk.symm.trans hk'
  | array hk' => cases hk.symm.trans hk'
  | pointer hk' => cases hk.symm.trans hk'

/-- A field that is no array. -/
theorem asBytes_of_kind {k : Kind} (hk : f.kind = some k)
    (hnot : ∀ type len, k ≠ .array type len) : AsBytes M literal x f := by
  intro type len bs n hk'
  exact absurd (Option.some.inj (hk.symm.trans hk')) (hnot type len)

end

/-- Of two different nodes, the builder shows the first one twice, in a program that compiles and
links. -/
theorem rate_repeats : Reads rateText [rateDef.struct] ∧
    ∃ nodes, Linked (radioHeap 9) (some 1) nodes ∧ nodes.length = 2 ∧
    ∃ g, generate id rateText = some g ∧ Linkable (functionsOf g.stmts) ∧
      ∃ fn ∈ functionsOf g.stmts,
        CallsTyped rateDef.struct.fields (functionsOf g.stmts) fn ∧
        ¬ ∃ os, Gives trees two (radioHeap 9) (functionsOf g.stmts) (functionName fn)
            [.pointer (some 1)] (trees.newArray (os.map trees.newObject)) ∧
          ShowsNodes id littleEndian trees two (radioHeap 9) (functionsOf g.stmts)
            rateDef.members os nodes := by
  have hreads : Reads rateText [rateDef.struct] := by decide +kernel
  let x : Node Value := ⟨fun _ => .number 6, some 2⟩
  let y : Node Value := ⟨fun _ => .number 9, none⟩
  have hlinked : Linked (radioHeap 9) (some 1) [x, y] := .cons rfl (.cons rfl .nil)
  obtain ⟨g, hg, hstmts⟩ := generate_stmts id hreads (by simp)
  have hfns : functionsOf g.stmts = builders id [rateDef.struct] := by
    rw [hstmts, functionsOf_builders]
  have hl : Linkable (builders id [rateDef.struct]) :=
    (linkable_iff id).mpr (by unfold NamesApart; decide)
  refine ⟨hreads, [x, y], hlinked, rfl, g, hg, ?_⟩
  rw [hfns]
  refine ⟨hl, rateDef.struct.stmts id, List.mem_singleton_self _, ?_, ?_⟩
  · refine (rateDef.typed_iff id).mpr fun f hf => ?_
    rcases List.mem_pair.mp (mem_written.mp hf).1 with rfl | rfl <;>
      exact ⟨.number, rfl, trivial⟩
  · refine fun hos => ?_
    obtain ⟨-, hsame⟩ :=
      (rateDef.shows_iff id trees_faithful hl (List.mem_singleton_self _) hlinked).mp hos
    obtain ⟨-, t, ht⟩ := hsame x rfl .counter List.mem_cons_self
    have hfirst := (ht x (by simp)).number_inv rfl (n := 6) rfl
    have hsecond := (ht y (by simp)).number_inv rfl (n := 9) rfl
    exact absurd (JsonTree.int.inj (hfirst.symm.trans hsecond)) (by decide)

/-- A list with an array. -/
def cellText : Text :=
  txt "typedef struct cell \x7b\n    uint16_t cnt;\n    uint8_t mac[2];\n" ++
    txt "    cell *next;\n\x7d cell;\n"

def cellDef : ListDef :=
  { name := txt "cell", fields := [.array (txt "uint8_t") (txt "mac") (txt "2")],
    nextType := txt "cell", distinct := by decide }

def cellNode (next : Option Nat) : Node Value :=
  ⟨fun name => if name = txt "cnt" then .number 2 else .bytes [3, 4], next⟩

/-- Two nodes with one address. -/
def cellHeap : Nodes Value
  | 1 => some (cellNode (some 2))
  | 2 => some (cellNode none)
  | _ => none

theorem listBuilders_iff_cell : ∃ g, generate id cellText = some g ∧
    ∃ fn ∈ functionsOf g.stmts, ∃ os,
      Gives trees two cellHeap (functionsOf g.stmts) (functionName fn) [.pointer (some 1)]
        (trees.newArray (os.map trees.newObject)) ∧
      ShowsNodes id littleEndian trees two cellHeap (functionsOf g.stmts) cellDef.members os
        [cellNode (some 2), cellNode none] := by
  have hreads : Reads cellText [cellDef.struct] := by decide +kernel
  obtain ⟨g, hg, hfns⟩ := listBuilders_iff id hreads (by simp)
  refine ⟨g, hg, ?_⟩
  generalize functionsOf g.stmts = fns at hfns ⊢
  cases hfns with
  | @cons _ fn _ fns hfn hnil =>
    have hiff := hfn cellDef rfl littleEndian trees trees_faithful two cellHeap (some 1)
      [cellNode (some 2), cellNode none] (.cons rfl (.cons rfl .nil))
    have hapart : NamesApart id [cellDef.struct] := by
      unfold NamesApart
      decide
    have hcallable : ∀ f ∈ written cellDef.members,
        f.Callable cellDef.struct.fields [cellDef.struct] := by
      intro f hf
      rcases List.mem_pair.mp (mem_written.mp hf).1 with rfl | rfl
      · exact ⟨.number, rfl, trivial⟩
      · exact ⟨_, rfl, rfl⟩
    have hsame : ∀ f ∈ cellDef.members, AsBytes littleEndian two (cellNode (some 2)) f ∧
        ∃ t, ∀ x ∈ [cellNode (some 2), cellNode none],
          Shown id littleEndian trees two cellHeap (fn :: fns) x f t := by
      have hnode : ∀ x ∈ [cellNode (some 2), cellNode none], ∃ next, x = cellNode next := by
        simp
      intro f hf
      rcases List.mem_pair.mp hf with rfl | rfl
      · refine ⟨asBytes_of_kind rfl (by simp), trees.newInt 2, fun x hx => ?_⟩
        obtain ⟨next, rfl⟩ := hnode x hx
        exact .number rfl rfl
      · refine ⟨asBytes_uint8 littleEndian rfl fun n hn => ?_,
          trees.newArray ([3, 4].map trees.newInt), fun x hx => ?_⟩
        · obtain rfl := Value.number.inj hn
          decide
        · obtain ⟨next, rfl⟩ := hnode x hx
          exact .array (n := 2) rfl rfl rfl ⟨by decide, by decide, by decide⟩
    obtain ⟨-, -, os, hos⟩ := hiff.mpr
      ⟨hapart, ⟨by decide, by decide⟩, hcallable, fun x₀ hx₀ => Option.some.inj hx₀ ▸ hsame⟩
    exact ⟨fn, List.mem_cons_self, os, hos⟩

end Capwap.Script
