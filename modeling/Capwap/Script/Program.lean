/-
# The program that the builders make together

A builder calls other builders, one for each pointer to a struct.  `Gives` is what a call gives in
the program that has been generated: a function of the JSON library gives a value, `buildArray`
runs its loop, and a builder gives what it returns when each call in it gives what it does
(`Gives.unique`).

What a call should give is said of the data (`Means`): a struct is shown as an object of its
fields, a list as an array of its nodes, an array as an array of numbers, and a pointer as the
struct it points to.  Which nodes and which numbers are shown is left to a `Reading`.  The generated
program has a reading of its own (`asBuilt`): each node of a list is the first one, and the numbers
of an array are its first bytes, whatever the type of its elements is, as many as its length says
modulo 256.  In this reading it gives exactly what the data shows (`program_iff`), and so it does in
the plain reading wherever the two agree (`program_faithful`): the plain reading shows every node,
and every element as it lies in memory.
-/
import Capwap.Script.Records
import Capwap.Script.Lines

namespace Capwap.Script

open Pattern

/-! ## 1. Calls

So far the calls in a builder had any meaning.  In the program they have one: the JSON library is
outside of it and may be any, `buildArray` is a loop over bytes, and a builder is a function of the
file.  Since builders call builders, what a call gives is defined by induction. -/

/-- What a member holds: a number, the bytes of an array, or a pointer to a struct. -/
inductive Value
  | number (n : Int)
  | bytes (bs : List UInt8)
  | pointer (p : Option Nat)
deriving DecidableEq

/-- The JSON library: its functions build the values that they name. -/
structure JsonLib (κ : Type) where
  newInt : Int → κ
  newString : List UInt8 → κ
  newArray : List κ → κ
  newObject : JsonObject κ → κ

section
variable {κ : Type}

def Json.make (lib : JsonLib κ) : Json κ → κ
  | .object o => lib.newObject o
  | .array os => lib.newArray (os.map lib.newObject)

/-- The loop of `buildArray` from `i` on, with so many rounds to go. -/
def arrayLoop (lib : JsonLib κ) (macAddr : List UInt8) : Nat → Nat → Option (List κ)
  | 0, _ => some []
  | n + 1, i => do
    let b ← macAddr[i]?
    let rest ← arrayLoop lib macAddr n (i + 1)
    some (lib.newInt b.toNat :: rest)

/-- `buildArray`, which is written before the builders; `macLen` is a `uint8_t`, so a length is
taken modulo 256.  A byte behind the end of the array has no value. -/
def runBuildArray (lib : JsonLib κ) (macAddr : List UInt8) (macLen : Int) : Option κ :=
  (arrayLoop lib macAddr (macLen % 256).toNat 0).map lib.newArray

/-- The name of a function. -/
def functionName : List Stmt → Text
  | .head function _ :: _ => function
  | _ => []

/-- What a call gives, in the program that consists of these functions: a function of the library a
value, `buildArray` what its loop makes, and a builder what it returns when each call in it gives
what it gives in this program.  A call of a function that is not there gives nothing, and neither
does one that is not given what it wants. -/
inductive Gives (lib : JsonLib κ) (literal : Text → Value) (heap : Nodes Value)
    (fns : List (List Stmt)) : Text → List Value → κ → Prop
  | newInt (n : Int) :
      Gives lib literal heap fns (txt "json_object_new_int") [.number n] (lib.newInt n)
  | newString (bs : List UInt8) :
      Gives lib literal heap fns (txt "json_object_new_string") [.bytes bs] (lib.newString bs)
  | buildArray {bs : List UInt8} {n : Int} {t : κ} (h : runBuildArray lib bs n = some t) :
      Gives lib literal heap fns (txt "buildArray") [.bytes bs, .number n] t
  | builder {fn : List Stmt} {p : Option Nat} {r : Json κ} (hfn : fn ∈ fns) (C : Calls Value κ)
      (hliteral : C.literal = literal)
      (hcalls : ∀ key e, Stmt.add key e ∈ fn → ∀ (s : Exec κ) (vs : List Value),
        e.args.mapM (Arg.eval C heap p s) = some vs →
          Gives lib literal heap fns e.method vs (C.call e.method vs))
      (hr : Returns C heap p fn r) :
      Gives lib literal heap fns (functionName fn) [.pointer p] (r.make lib)

/-! ## 2. One result

`Gives` is a relation, and a call could have two results, or depend on a choice of meanings for
calls that are not made.  Neither is the case: a function at work depends only on the calls that
are written in it, and each of these has one result, by induction. -/

theorem afterBlock_suffix : ∀ {code code' : List Stmt} {n : Nat},
    afterBlock code n = some code' → code' <:+ code := by
  intro code
  induction code with
  | nil =>
    intro code' n h
    cases h
  | cons s code ih =>
    intro code' n h
    have hrest : ∀ {m}, afterBlock code m = some code' → code' <:+ s :: code :=
      fun h => (ih h).trans (List.suffix_cons _ _)
    cases s with
    | close =>
      cases n with
      | zero =>
        obtain rfl := Option.some.inj h
        exact List.suffix_cons _ _
      | succ n => exact hrest h
    | _ => exact hrest h

/-- The statements at work are those of a function. -/
structure Exec.Within (fn : List Stmt) (s : Exec κ) : Prop where
  code : ∀ x ∈ s.code, x ∈ fn
  blocks : ∀ start, some start ∈ s.blocks → ∀ x ∈ start, x ∈ fn

variable {C D : Calls Value κ} {heap : Nodes Value} {p : Option Nat} {fn : List Stmt}

theorem Exec.Within.step {s s' : Exec κ} (h : s.Within fn)
    (hs : execStep C heap p s = .next s') : s'.Within fn := by
  have hcode := h.code
  have hblocks := h.blocks
  have htail : ∀ {x code}, s.code = x :: code → ∀ y ∈ code, y ∈ fn :=
    fun heq y hy => hcode y (heq ▸ List.mem_cons_of_mem _ hy)
  have hskip : ∀ {x code code'}, s.code = x :: code → afterBlock code 0 = some code' →
      ∀ y ∈ code', y ∈ fn :=
    fun heq hafter y hy => htail heq y ((afterBlock_suffix hafter).subset hy)
  unfold execStep at hs
  split at hs
  · cases hs
  · next heq =>
    obtain rfl := Step.next.inj hs
    exact ⟨htail heq, hblocks⟩
  · next heq =>
    obtain rfl := Step.next.inj hs
    exact ⟨htail heq, hblocks⟩
  · next heq =>
    obtain rfl := Step.next.inj hs
    exact ⟨htail heq, hblocks⟩
  · next heq =>
    split at hs
    · obtain rfl := Step.next.inj hs
      refine ⟨htail heq, fun start hstart => ?_⟩
      rcases List.mem_cons.mp hstart with h | h
      · obtain rfl := Option.some.inj h
        exact hcode
      · exact hblocks start h
    · split at hs
      · next hafter =>
        obtain rfl := Step.next.inj hs
        exact ⟨hskip heq hafter, hblocks⟩
      · cases hs
  · next heq =>
    obtain rfl := Step.next.inj hs
    exact ⟨htail heq, hblocks⟩
  · next heq =>
    split at hs
    · obtain rfl := Step.next.inj hs
      refine ⟨htail heq, fun start hstart => ?_⟩
      rcases List.mem_cons.mp hstart with h | h
      · cases h
      · exact hblocks start h
    · split at hs
      · next hafter =>
        obtain rfl := Step.next.inj hs
        exact ⟨hskip heq hafter, hblocks⟩
      · cases hs
  · next heq =>
    split at hs
    · obtain rfl := Step.next.inj hs
      exact ⟨htail heq, hblocks⟩
    · cases hs
  · next heq =>
    obtain rfl := Step.next.inj hs
    exact ⟨htail heq, hblocks⟩
  · next heq =>
    split at hs
    · obtain rfl := Step.next.inj hs
      exact ⟨htail heq, hblocks⟩
    · cases hs
  · next heq =>
    split at hs
    · next hopen =>
      obtain rfl := Step.next.inj hs
      rw [hopen] at hblocks
      exact ⟨hblocks _ List.mem_cons_self,
        fun start hstart => hblocks start (List.mem_cons_of_mem _ hstart)⟩
    · next hopen =>
      obtain rfl := Step.next.inj hs
      rw [hopen] at hblocks
      exact ⟨htail heq, fun start hstart => hblocks start (List.mem_cons_of_mem _ hstart)⟩
    · cases hs
  · cases hs
  · cases hs

/-- A function does the same whatever the functions are that it does not call: two meanings of
calls that agree on the calls in its text lead to the same run. -/
theorem ends_congr (hliteral : D.literal = C.literal)
    (hcalls : ∀ key e, Stmt.add key e ∈ fn → ∀ (s : Exec κ) (vs : List Value),
      e.args.mapM (Arg.eval C heap p s) = some vs → D.call e.method vs = C.call e.method vs)
    {r : Option (Json κ)} (h : Loop.Ends (execStep C heap p) (Exec.start fn) r) :
    Loop.Ends (execStep D heap p) (Exec.start fn) r := by
  have hargs : ∀ (s : Exec κ), Arg.eval D heap p s = Arg.eval C heap p s := by
    intro s
    funext a
    cases a with
    | member x name => rfl
    | text t => simp only [Arg.eval, hliteral]
  have heval : ∀ key e, Stmt.add key e ∈ fn → ∀ s : Exec κ,
      e.eval D heap p s = e.eval C heap p s := by
    intro key e hmem s
    unfold Expr.eval
    rw [hargs s]
    cases hvs : e.args.mapM (Arg.eval C heap p s) with
    | none => rfl
    | some vs => simp only [Option.map_some, hcalls key e hmem s vs hvs]
  have hsame : ∀ s : Exec κ, s.Within fn →
      execStep D heap p s = execStep C heap p s ∨
        ∃ b, execStep C heap p s = .done b ∧ False := by
    intro s hs
    refine Or.inl ?_
    unfold execStep
    split
    all_goals try rfl
    next key value code heq =>
      rw [heval key value (hs.code _ (heq ▸ List.mem_cons_self)) s]
  have hstart : (Exec.start fn : Exec κ).Within fn :=
    ⟨fun x hx => hx, fun start hstart => absurd hstart (by simp [Exec.start])⟩
  obtain ⟨n, hn⟩ := h
  refine ⟨n, ?_⟩
  have hrun : Loop.run (execStep D heap p) n (Exec.start fn)
        = Loop.run (execStep C heap p) n (Exec.start fn) ∨
      ∃ b, Loop.run (execStep C heap p) n (Exec.start fn) = some b ∧ False :=
    Loop.run_unless (fun s s' hs => hs.step) hsame hstart n
  rcases hrun with heq | ⟨b, -, hfalse⟩
  · exact heq.trans hn
  · exact hfalse.elim

/-- The functions of a program have names of their own, and none of those of the library. -/
structure Linkable (fns : List (List Stmt)) : Prop where
  names : (fns.map functionName).Nodup
  own : ∀ fn ∈ fns, functionName fn ∉
    [txt "json_object_new_int", txt "json_object_new_string", txt "buildArray"]

theorem arrayLoop_eq (lib : JsonLib κ) (macAddr : List UInt8) : ∀ n i, i + n ≤ macAddr.length →
    arrayLoop lib macAddr n i
      = some (((macAddr.drop i).take n).map fun b => lib.newInt b.toNat) := by
  intro n
  induction n with
  | zero =>
    intro i _
    simp [arrayLoop]
  | succ n ih =>
    intro i hi
    have hlt : i < macAddr.length := by omega
    rw [arrayLoop, ih (i + 1) (by omega), List.getElem?_eq_getElem hlt,
      List.drop_eq_getElem_cons hlt, List.take_succ_cons]
    rfl

variable {lib : JsonLib κ} {literal : Text → Value} {fns : List (List Stmt)}

/-- A call gives one value.  The induction is on the first derivation; the second is by the same
function, since names are distinct. -/
theorem Gives.unique (hl : Linkable fns) {f : Text} {vs : List Value} {t t' : κ}
    (h : Gives lib literal heap fns f vs t) (h' : Gives lib literal heap fns f vs t') :
    t = t' := by
  induction h generalizing t' with
  | newInt n =>
    generalize txt "json_object_new_int" = f at h'
    cases h'
    rfl
  | newString bs =>
    generalize txt "json_object_new_string" = f at h'
    cases h'
    rfl
  | buildArray h =>
    generalize txt "buildArray" = f at h'
    cases h' with
    | buildArray h' => exact Option.some.inj (h.symm.trans h')
  | @builder fn p r hfn C hliteral hcalls hr ih =>
    generalize hf : functionName fn = f at h'
    generalize hvs : [Value.pointer p] = vs at h'
    cases h' with
    | newInt => cases hvs
    | newString => cases hvs
    | buildArray => cases hvs
    | @builder fn' p' r' hfn' D hliteral' hcalls' hr' =>
      cases hvs
      obtain rfl := List.inj_on_of_nodup_map hl.names hfn hfn' hf
      have hsame := ends_congr (C := C) (D := D) (hliteral'.trans hliteral.symm)
        (fun key e hmem s vs hargs => ?_) hr.2
      · have heq := hsame.unique hr'.2
        injection heq with heq
        rw [heq]
      · have hargs' : e.args.mapM (Arg.eval D heap p s) = some vs := by
          have harg : Arg.eval D heap p s = Arg.eval C heap p s := by
            funext a
            cases a with
            | member x name => rfl
            | text t => simp only [Arg.eval, hliteral, hliteral']
          rw [harg]
          exact hargs
        exact (ih key e hmem s vs hargs (hcalls' key e hmem s vs hargs')).symm

end

/-! ## 3. What the data shows

This is the other side: what a caller of a builder would expect, said of the structs in memory and
without any function.  Fields have kinds, and each kind is shown in its way.  What may be doubtful
is left open as a `Reading`, so that it can be said afterwards in which reading the program is
right. -/

/-- The types of numbers. -/
def numberTypes : List Text := [txt "int8_t", txt "uint8_t", txt "uint16_t", txt "uint32_t"]

/-- The struct that a pointer of a type points to. -/
def structName (type : Text) : Option Text :=
  let name := type.take (type.length - 2)
  if type ∉ numberTypes ∧ name ≠ [] ∧ name.all isWord = true ∧ name ++ txt "_t" = type then
    some name
  else none

/-- What a field is: a number, a text, an array with the type of its elements and its length, or a
pointer to a struct. -/
inductive Kind
  | number
  | text (type : Text)
  | array (type : Text) (length : Arg)
  | struct (name : Text)
deriving DecidableEq

/-- The kinds of fields, where the type and the value go together.  The length of an array without
one is in another member. -/
def Field.kind : Field → Option Kind
  | .macAddr type | .macAddrMax type => some (.array type (.member [] (txt "macLen")))
  | .macAddrEth type => some (.array type (.text (txt "ETH_ALEN")))
  | .keyMax type => some (.array type (.member [] (txt "kLen")))
  | .array type value len =>
    if len = txt "0" then
      if value = txt "rates" then some (.array type (.member [] (txt "rate_num")))
      else if value = txt "ie" then some (.array type (.member [] (txt "ie_len")))
      else if value = txt "key" then some (.array type (.member [] (txt "kLen")))
      else none
    else if value = txt "sn" then some (.text type)
    else if value = txt "slct" then some (.array type (.member [] (txt "cnt")))
    else some (.array type (.text len))
  | .scalar key _ => if key ∈ numberTypes then some .number else none
  | .pointer key _ => (structName key).map .struct
  | .bitset _ => some .number

/-- How arrays lie in memory: the elements that some bytes are, for each type.  The elements of
`uint8_t` are the bytes. -/
structure Memory where
  elements : Text → List UInt8 → List Int
  uint8 : ∀ bs, elements (txt "uint8_t") bs = bs.map fun b => (b.toNat : Int)

/-- The types of a text's characters. -/
def charTypes : List Text := [txt "char", txt "int8_t", txt "uint8_t"]

/-- What stands for the nodes of a list and for the elements of an array, which has a type, bytes
and a length, and of which types a text can be. -/
structure Reading where
  nodes : List (Node Value) → List (Node Value) → Prop
  array : Text → List UInt8 → Int → List Int → Prop
  text : Text → Prop

namespace Reading

/-- Every node, and as many elements as the length says. -/
def plain (M : Memory) : Reading where
  nodes xs ys := ys = xs
  array type bs n vs := 0 ≤ n ∧ n ≤ (M.elements type bs).length ∧
    vs = (M.elements type bs).take n.toNat
  text type := type ∈ charTypes

/-- Nodes with the members of the first one, and bytes, as many as the length says in eight bits. -/
def asBuilt : Reading where
  nodes xs ys := ys.length = xs.length ∧ ∀ y ∈ ys, ∀ x₀ ∈ xs.head?, y.member = x₀.member
  array _ bs n vs := (n % 256).toNat ≤ bs.length ∧
    vs = (bs.take (n % 256).toNat).map fun b => (b.toNat : Int)
  text _ := True

/-- Where two readings agree. -/
def both (R R' : Reading) : Reading where
  nodes xs ys := R.nodes xs ys ∧ R'.nodes xs ys
  array type bs n vs := R.array type bs n vs ∧ R'.array type bs n vs
  text type := R.text type ∧ R'.text type

/-- The readings agree on arrays of `uint8_t` with a length below 256. -/
theorem both_uint8 (M : Memory) {bs : List UInt8} {n : Int} (h0 : 0 ≤ n) (hn : n < 256)
    (hle : n ≤ bs.length) : ((plain M).both asBuilt).array (txt "uint8_t") bs n
      ((bs.take n.toNat).map fun b => (b.toNat : Int)) := by
  have hmod : n % 256 = n := Int.emod_eq_of_lt h0 hn
  refine ⟨⟨h0, ?_, ?_⟩, ?_, ?_⟩
  · rw [M.uint8, List.length_map]
    exact hle
  · rw [M.uint8, List.map_take]
  · rw [hmod]
    omega
  · rw [hmod]

end Reading

/-- What is shown: a struct, through a pointer, or a field of a node. -/
inductive Subject
  | struct (d : StructDef) (p : Option Nat)
  | field (x : Node Value) (f : Field)

/-- The object with a value for each field. -/
def keyed {κ : Type} (fs : List Field) (value : Text → κ) : JsonObject κ :=
  fun key => if key ∈ fs.map Field.name then some (value key) else none

/-- What an argument that is made of members of `x` stands for. -/
def Arg.of (literal : Text → Value) (x : Node Value) : Arg → Value
  | .member _ name => x.member name
  | .text t => literal t

section
variable {κ : Type}

/-- The JSON value that the data shows, in a reading.  A list is shown as an array, a struct as an
object that has the fields' names as its keys, and a pointer as the struct that it points to. -/
inductive Means (R : Reading) (lib : JsonLib κ) (literal : Text → Value) (heap : Nodes Value)
    (defs : List StructDef) : Subject → κ → Prop
  | null (r : RecordDef) : Means R lib literal heap defs (.struct r.struct none)
      (lib.newObject fun _ => none)
  | record (r : RecordDef) {a : Nat} {x : Node Value} {value : Text → κ} (hx : heap a = some x)
      (h : ∀ f ∈ r.members, Means R lib literal heap defs (.field x f) (value f.name)) :
      Means R lib literal heap defs (.struct r.struct (some a))
        (lib.newObject (keyed r.members value))
  | list (l : ListDef) {p : Option Nat} {xs ys : List (Node Value)} {value : Node Value → Text → κ}
      (hl : Linked heap p xs) (hr : R.nodes xs ys)
      (h : ∀ y ∈ ys, ∀ f ∈ l.members,
        Means R lib literal heap defs (.field y f) (value y f.name)) :
      Means R lib literal heap defs (.struct l.struct p)
        (lib.newArray (ys.map fun y => lib.newObject (keyed l.members (value y))))
  | number {x : Node Value} {f : Field} {n : Int} (hk : f.kind = some .number)
      (hv : x.member f.name = .number n) :
      Means R lib literal heap defs (.field x f) (lib.newInt n)
  | text {x : Node Value} {f : Field} {type : Text} {bs : List UInt8}
      (hk : f.kind = some (.text type)) (hv : x.member f.name = .bytes bs) (ht : R.text type) :
      Means R lib literal heap defs (.field x f) (lib.newString bs)
  | array {x : Node Value} {f : Field} {type : Text} {len : Arg} {bs : List UInt8} {n : Int}
      {vs : List Int} (hk : f.kind = some (.array type len)) (hv : x.member f.name = .bytes bs)
      (hn : len.of literal x = .number n) (hvs : R.array type bs n vs) :
      Means R lib literal heap defs (.field x f) (lib.newArray (vs.map lib.newInt))
  | pointer {x : Node Value} {f : Field} {d : StructDef} {p : Option Nat} {t : κ} (hd : d ∈ defs)
      (hk : f.kind = some (.struct d.name)) (hv : x.member f.name = .pointer p)
      (h : Means R lib literal heap defs (.struct d p) t) :
      Means R lib literal heap defs (.field x f) t

end

/-! ## 4. What is written for a field

A kind of a field decides which function is called: `json_object_new_int` for a number,
`json_object_new_string` for a text, `buildArray`, or the builder of the struct. -/

section
variable (camelize : Text → Text)

theorem getNewMethod_number {type : Text} (h : type ∈ numberTypes) :
    getNewMethod camelize type = txt "json_object_new_int" := by
  unfold getNewMethod
  refine if_pos ?_
  simpa only [numberTypes, List.mem_cons, List.not_mem_nil, or_false] using h

theorem structName_eq {type name : Text} (h : structName type = some name) :
    type ∉ numberTypes ∧ IsWord name ∧ type = name ++ txt "_t" := by
  unfold structName at h
  simp only at h
  split at h
  · next hif =>
    obtain rfl := Option.some.inj h
    obtain ⟨hnumber, hne, hall, heq⟩ := hif
    exact ⟨hnumber, ⟨hne, List.all_eq_true.mp hall⟩, heq.symm⟩
  · cases h

/-- The name of the type is cut off at its last `_t`, and what is left names the struct. -/
theorem getNewMethod_struct {type name : Text} (h : structName type = some name) :
    getNewMethod camelize type = builderName camelize name := by
  obtain ⟨hnumber, hword, rfl⟩ := structName_eq h
  have hlater : ∀ u v, txt "_t" = u ++ v → u ≠ [] → matchHere (lit "_t") v = none := by
    intro u v huv hu
    cases u with
    | nil => exact absurd rfl hu
    | cons c u =>
      obtain ⟨-, huv⟩ := List.cons.inj huv
      cases u with
      | nil =>
        obtain rfl : ['t'] = v := huv
        rfl
      | cons d u =>
        obtain ⟨-, huv⟩ := List.cons.inj huv
        obtain ⟨-, rfl⟩ := List.append_eq_nil_iff.mp huv.symm
        rfl
  have hmatch : matchHere ([.group isWord] ++ lit "_t") (name ++ txt "_t") = some [name] := by
    have hlongest := longest_unless hlater (matchHere_text (txt "_t")) hword.1 hword.2
    show (longest isWord (matchHere (lit "_t")) (name ++ txt "_t")).map (fun x => x.1 :: x.2) = _
    rw [hlongest]
    rfl
  unfold getNewMethod
  rw [if_neg ?_, find_of_matchHere hmatch]
  · rfl
  · simpa only [numberTypes, List.mem_cons, List.not_mem_nil, or_false] using hnumber

/-- The value of a field of a kind. -/
def Kind.value (member : Text) : Kind → Expr
  | .number => ⟨txt "json_object_new_int", [.member [] member]⟩
  | .text _ => ⟨txt "json_object_new_string", [.member [] member]⟩
  | .array _ length => buildArray (.member [] member) length
  | .struct name => ⟨builderName camelize name, [.member [] member]⟩

/-- What is written for a field goes with its kind. -/
theorem Field.value_of_kind {f : Field} {k : Kind} (h : f.kind = some k) :
    f.value camelize [] = some (k.value camelize f.name) := by
  cases f with
  | macAddr type | macAddrMax type | macAddrEth type | keyMax type | bitset value =>
    obtain rfl := Option.some.inj h
    rfl
  | array type value len =>
    unfold Field.kind at h
    unfold Field.value
    simp only at h ⊢
    split_ifs at h ⊢ <;> cases h <;> rfl
  | scalar key value =>
    unfold Field.kind at h
    simp only at h
    split at h
    · next hkey =>
      obtain rfl := Option.some.inj h
      unfold Field.value
      simp only [getNewMethod_number camelize hkey]
      rfl
    · cases h
  | pointer key value =>
    obtain ⟨name, hname, rfl⟩ := Option.map_eq_some_iff.mp h
    unfold Field.value
    simp only [getNewMethod_struct camelize hname]
    rfl

/-- The first argument is a member of the parameter. -/
theorem Field.value_member {f : Field} {type : Text} {e : Expr}
    (h : f.value camelize type = some e) : ∃ name rest, e.args = .member type name :: rest := by
  cases f with
  | array type value len =>
    unfold Field.value at h
    simp only at h
    split_ifs at h <;> cases h <;> exact ⟨_, _, rfl⟩
  | _ =>
    obtain rfl := Option.some.inj h
    exact ⟨_, _, rfl⟩

/-! ## 5. What the program gives

A builder is run by the theorems of `Script/Lists.lean` and `Script/Records.lean`, with a meaning
of calls that is taken from what they give.  Then what it gives is an object of what the calls for
its fields give, and the two sides are compared field by field. -/

variable {κ : Type} {lib : JsonLib κ} {literal : Text → Value} {heap : Nodes Value}
  {defs : List StructDef} {fns : List (List Stmt)} {p : Option Nat}

/-- The functions that are made of structs. -/
abbrev builders (defs : List StructDef) : List (List Stmt) := defs.map (StructDef.stmts camelize)

/-- Each builder is well formed and hides no name that it uses, and no two functions have one name.
That the functions called are there and are given what they want is not asked: where the data shows
something, they are. -/
structure Links (defs : List StructDef) : Prop where
  compiles : ∀ d ∈ defs, Compiles (d.stmts camelize)
  linkable : Linkable (builders camelize defs)

/-- The fields that something is written for. -/
def written (fs : List Field) : List Field := fs.filter fun f => ¬ f.Silent

theorem mem_written {fs : List Field} {f : Field} : f ∈ written fs ↔ f ∈ fs ∧ ¬ f.Silent := by
  simp [written]

/-- The call written for a field gives a value. -/
def FieldGives (lib : JsonLib κ) (literal : Text → Value) (heap : Nodes Value)
    (fns : List (List Stmt)) (x : Node Value) (f : Field) (t : κ) : Prop :=
  ∃ e, f.value camelize [] = some e ∧
    Gives lib literal heap fns e.method (e.args.map (Arg.of literal x)) t

/-- What a call gives is a function of the call, so there is a meaning of calls that has it where
it is defined. -/
theorem exists_calls (lib : JsonLib κ) (literal : Text → Value) (heap : Nodes Value)
    (hl : Linkable fns) : ∃ C : Calls Value κ, C.literal = literal ∧
    ∀ f vs t, Gives lib literal heap fns f vs t → C.call f vs = t := by
  classical
  refine ⟨⟨literal, fun f vs => if h : ∃ t, Gives lib literal heap fns f vs t then h.choose
    else lib.newInt 0⟩, rfl, ?_⟩
  intro f vs t ht
  have hex : ∃ t, Gives lib literal heap fns f vs t := ⟨t, ht⟩
  simp only [dif_pos hex]
  exact hex.choose_spec.unique hl ht

theorem FieldGives.not_silent {x : Node Value} {f : Field} {t : κ}
    (h : FieldGives camelize lib literal heap fns x f t) : ¬ f.Silent := by
  obtain ⟨e, he, -⟩ := h
  rcases f.value_cases camelize [] with ⟨-, hnone⟩ | ⟨hsilent, -⟩
  · rw [he] at hnone
    cases hnone
  · exact hsilent

theorem FieldGives.unique (hl : Linkable fns) {x : Node Value} {f : Field} {t t' : κ}
    (h : FieldGives camelize lib literal heap fns x f t)
    (h' : FieldGives camelize lib literal heap fns x f t') : t = t' := by
  obtain ⟨e, he, hgives⟩ := h
  obtain ⟨e', he', hgives'⟩ := h'
  obtain rfl := Option.some.inj (he.symm.trans he')
  exact hgives.unique hl hgives'

/-- What a field gives depends on the members of the node, and not on what is next. -/
theorem FieldGives.congr {x y : Node Value} (hxy : x.member = y.member) {f : Field} {t : κ}
    (h : FieldGives camelize lib literal heap fns x f t) :
    FieldGives camelize lib literal heap fns y f t := by
  obtain ⟨e, he, hgives⟩ := h
  refine ⟨e, he, ?_⟩
  have hargs : e.args.map (Arg.of literal y) = e.args.map (Arg.of literal x) := by
    refine List.map_congr_left fun a _ => ?_
    cases a with
    | member z name => exact (congrFun hxy name).symm
    | text s => rfl
  rw [hargs]
  exact hgives

theorem args_on {C : Calls Value κ} (hliteral : C.literal = literal) (x : Node Value)
    (args : List Arg) : args.map (Arg.on C x) = args.map (Arg.of literal x) := by
  refine List.map_congr_left fun a _ => ?_
  cases a with
  | member y name => rfl
  | text s => exact congrFun hliteral s

/-- What is made for a field in a node is what the call written for it gives. -/
theorem FieldGives.made {C : Calls Value κ} (hliteral : C.literal = literal)
    (hC : ∀ f vs t, Gives lib literal heap fns f vs t → C.call f vs = t) {x : Node Value}
    {f : Field} {t : κ} (h : FieldGives camelize lib literal heap fns x f t) :
    f.made camelize C x = some t := by
  obtain ⟨e, he, hgives⟩ := h
  rw [Field.made, he, Option.map_some, Expr.on, args_on hliteral, hC _ _ _ hgives]

/-- An argument that is a member of the parameter has no value where the parameter is null. -/
theorem mapM_null {C : Calls Value κ} {s : Exec κ} {type name : Text} {rest : List Arg}
    (h : (s.pointer p type).bind heap = none) :
    (Arg.member type name :: rest).mapM (Arg.eval C heap p s) = none := by
  have hnone : Arg.eval C heap p s (.member type name) = none := by
    simp only [Arg.eval, h, Option.map_none]
  rw [List.mapM_cons, hnone]
  rfl

/-- Each call in a function gives what it makes. -/
def CallsGive (lib : JsonLib κ) (literal : Text → Value) (heap : Nodes Value)
    (fns : List (List Stmt)) (p : Option Nat) (stmts : List Stmt) (C : Calls Value κ) : Prop :=
  ∀ key e, Stmt.add key e ∈ stmts → ∀ (s : Exec κ) (vs : List Value),
    e.args.mapM (Arg.eval C heap p s) = some vs →
      Gives lib literal heap fns e.method vs (C.call e.method vs)

/-- A builder gives what its function returns. -/
theorem Gives.builder_iff (hl : Linkable fns) {fn : List Stmt} (hfn : fn ∈ fns) {t : κ} :
    Gives lib literal heap fns (functionName fn) [.pointer p] t ↔
      ∃ (C : Calls Value κ) (r : Json κ), C.literal = literal ∧
        CallsGive lib literal heap fns p fn C ∧ Returns C heap p fn r ∧ t = r.make lib := by
  constructor
  · intro h
    generalize hf : functionName fn = f at h
    generalize hvs : [Value.pointer p] = vs at h
    cases h with
    | newInt => cases hvs
    | newString => cases hvs
    | buildArray => cases hvs
    | @builder fn' p' r hfn' C hliteral hcalls hr =>
      cases hvs
      obtain rfl := List.inj_on_of_nodup_map hl.names hfn hfn' hf
      exact ⟨C, r, hliteral, hcalls, hr, rfl⟩
  · rintro ⟨C, r, hliteral, hcalls, hr, rfl⟩
    exact .builder hfn C hliteral hcalls hr

/-- The calls written for fields give what they make just when those do that are made in the node
that the parameter points to. -/
theorem adds_give_iff {C : Calls Value κ} (hliteral : C.literal = literal) {type : Text}
    (htype : type ≠ txt "e") {fs : List Field} :
    CallsGive lib literal heap fns p (fs.flatMap (Field.adds camelize type)) C ↔
      ∀ x, p.bind heap = some x → ∀ f ∈ fs, ∀ t, f.made camelize C x = some t →
        FieldGives camelize lib literal heap fns x f t := by
  -- the arguments, in a state in which the parameter points to `x`
  have heval : ∀ {s : Exec κ} {x : Node Value}, (s.pointer p type).bind heap = some x →
      ∀ names literals : List Text, (names.map (Arg.member type) ++ literals.map Arg.text).mapM
        (Arg.eval C heap p s) = some ((names.map (Arg.member []) ++ literals.map Arg.text).map
          (Arg.on C x)) := by
    intro s x hx names literals
    have hargs : ∀ a ∈ names.map (Arg.member type) ++ literals.map Arg.text,
        a.eval C heap p s = some (a.on C x) := by
      intro a ha
      rcases List.mem_append.mp ha with ha | ha
      · obtain ⟨name, -, rfl⟩ := List.mem_map.mp ha
        simp only [Arg.eval, hx, Option.map_some, Arg.on]
      · obtain ⟨t, -, rfl⟩ := List.mem_map.mp ha
        rfl
    rw [mapM_eval hargs]
    simp [Function.comp_def, Arg.on]
  have hadd : ∀ {f : Field} {e : Expr}, f.value camelize type = some e →
      Stmt.add f.name e ∈ f.adds camelize type := by
    intro f e he
    simp [Field.adds, he]
  constructor
  · intro h x hx f hf t hmade
    rcases f.value_cases camelize type with ⟨hsilent, -⟩ | ⟨-, method, names, literals, hv, hv₀⟩
    · rw [(f.made_eq_none camelize).mpr hsilent] at hmade
      cases hmade
    rw [Field.made, hv₀, Option.map_some] at hmade
    obtain rfl := Option.some.inj hmade
    let s : Exec κ := { Exec.start [] with param := type }
    have hs : s.pointer p type = p := by
      unfold Exec.pointer
      rw [if_neg htype, if_pos rfl]
    have hgives := h f.name _ (List.mem_flatMap.mpr ⟨f, hf, hadd hv⟩) s _
      (heval (by rw [hs]; exact hx) names literals)
    refine ⟨_, hv₀, ?_⟩
    rw [← args_on hliteral]
    exact hgives
  · intro h key e he s vs hvs
    obtain ⟨f, hf, he⟩ := List.mem_flatMap.mp he
    obtain ⟨e', hvalue, heq⟩ := List.mem_map.mp he
    rw [Option.mem_toList] at hvalue
    obtain ⟨-, rfl⟩ := Stmt.add.inj heq
    have hpointer : s.pointer p type = p ∨ s.pointer p type = none := by
      unfold Exec.pointer
      rw [if_neg htype]
      split
      · exact Or.inl rfl
      · exact Or.inr rfl
    rcases f.value_cases camelize type with ⟨-, hnone⟩ | ⟨-, method, names, literals, hv, hv₀⟩
    · rw [hvalue] at hnone
      cases hnone
    obtain rfl := Option.some.inj (hvalue.symm.trans hv)
    cases hx : (s.pointer p type).bind heap with
    | none =>
      obtain ⟨name, rest, hargs⟩ := f.value_member camelize hv
      rw [hargs, mapM_null hx] at hvs
      cases hvs
    | some x =>
      obtain rfl := Option.some.inj ((heval hx names literals).symm.trans hvs)
      have hp : p.bind heap = some x := by
        rcases hpointer with hp | hp
        · rw [← hp]
          exact hx
        · rw [hp] at hx
          cases hx
      obtain ⟨e₀, hv₁, hgives⟩ := h x hp f hf _ (by rw [Field.made, hv₀, Option.map_some])
      obtain rfl := Option.some.inj (hv₀.symm.trans hv₁)
      rw [← args_on hliteral] at hgives
      exact hgives

/-- The object of a node. -/
theorem objectOf_keyed {C : Calls Value κ} {x : Node Value} {fs : List Field} {value : Text → κ}
    (hnodup : (fs.map Field.name).Nodup)
    (h : ∀ f ∈ written fs, f.made camelize C x = some (value f.name)) :
    objectOf camelize C x fs (fun _ => none) = keyed (written fs) value := by
  funext key
  unfold keyed
  by_cases hkey : key ∈ fs.map Field.name
  · obtain ⟨f, hf, rfl⟩ := List.mem_map.mp hkey
    rw [objectOf_field camelize x fs _ hnodup f hf]
    by_cases hsilent : f.Silent
    · have hnot : f.name ∉ (written fs).map Field.name := by
        intro hmem
        obtain ⟨g, hg, hname⟩ := List.mem_map.mp hmem
        obtain ⟨hg, hgsilent⟩ := mem_written.mp hg
        exact hgsilent (List.inj_on_of_nodup_map hnodup hg hf hname ▸ hsilent)
      rw [if_neg hnot, (f.made_eq_none camelize).mpr hsilent]
      rfl
    · have hf := mem_written.mpr ⟨hf, hsilent⟩
      rw [if_pos (List.mem_map_of_mem hf), h f hf]
      rfl
  · have hnot : key ∉ (written fs).map Field.name :=
      fun hmem => hkey ((List.filter_sublist.map _).subset hmem)
    rw [if_neg hnot]
    exact objectOf_other camelize x fs _ hkey

/-- What is made for the fields of a node, by their names. -/
theorem exists_value (lib : JsonLib κ) (C : Calls Value κ) (x : Node Value) {fs : List Field}
    (hnodup : (fs.map Field.name).Nodup) :
    ∃ value : Text → κ, ∀ f ∈ written fs, f.made camelize C x = some (value f.name) := by
  refine ⟨fun name => (objectOf camelize C x fs (fun _ => none) name).getD (lib.newInt 0), ?_⟩
  intro f hf
  obtain ⟨hf, hsilent⟩ := mem_written.mp hf
  simp only [objectOf_field camelize x fs _ hnodup f hf]
  cases hmade : f.made camelize C x with
  | none => exact absurd ((f.made_eq_none camelize).mp hmade) hsilent
  | some t => rfl

/-- A field of a kind is not silent. -/
theorem Field.not_silent_of_kind {f : Field} {k : Kind} (h : f.kind = some k) : ¬ f.Silent := by
  rcases f.value_cases id [] with ⟨-, hnone⟩ | ⟨hsilent, -⟩
  · rw [Field.value_of_kind id h] at hnone
    cases hnone
  · exact hsilent

/-- What is given for a subject. -/
def Given (lib : JsonLib κ) (literal : Text → Value) (heap : Nodes Value) (defs : List StructDef) :
    Subject → κ → Prop
  | .struct d p, t => d ∈ defs → Gives lib literal heap (builders camelize defs)
      (builderName camelize d.name) [.pointer p] t
  | .field x f, t =>
    FieldGives camelize lib literal heap (builders camelize defs) x f t

/-- What the builder of a record gives: an object of what the calls written for its fields give. -/
theorem RecordDef.gives_iff (hl : Linkable (builders camelize defs)) (r : RecordDef)
    (hd : r.struct ∈ defs) (hp : p = none ∨ (p.bind heap).isSome) (t : κ) :
    Gives lib literal heap (builders camelize defs) (builderName camelize r.name) [.pointer p] t ↔
      r.NameFree camelize ∧ ∃ value : Text → κ,
        (∀ x, p.bind heap = some x → ∀ f ∈ written r.members,
          FieldGives camelize lib literal heap (builders camelize defs) x f (value f.name)) ∧
        t = lib.newObject fun key =>
          (p.bind heap).bind fun _ => keyed (written r.members) value key := by
  have hfn : r.struct.stmts camelize ∈ builders camelize defs := List.mem_map_of_mem hd
  have hcalls : ∀ C : Calls Value κ, C.literal = literal →
      (CallsGive lib literal heap (builders camelize defs) p (r.struct.stmts camelize) C ↔
        ∀ x, p.bind heap = some x → ∀ f ∈ r.members, ∀ t, f.made camelize C x = some t →
          FieldGives camelize lib literal heap (builders camelize defs) x f t) := by
    intro C hliteral
    rw [← adds_give_iff camelize hliteral r.notCursor, r.stmts_eq camelize]
    simp [CallsGive, tailCode]
  refine (Gives.builder_iff hl hfn).trans ?_
  constructor
  · rintro ⟨C, json, hliteral, hgive, ⟨hcompiles, hends⟩, rfl⟩
    refine ⟨(r.compiles_iff camelize).mp hcompiles, ?_⟩
    obtain rfl : json = .object (r.built camelize C (p.bind heap)) :=
      Option.some.inj (hends.unique (r.builder_ends camelize hp))
    have hgive := (hcalls C hliteral).mp hgive
    cases hx : p.bind heap with
    | none => exact ⟨fun _ => lib.newInt 0, by simp, rfl⟩
    | some x =>
      obtain ⟨value, hvalue⟩ := exists_value camelize lib C x r.distinct
      refine ⟨value, ?_, ?_⟩
      · rintro _ ⟨⟩ f hf
        exact hgive x hx f (mem_written.mp hf).1 _ (hvalue f hf)
      · exact congrArg lib.newObject (objectOf_keyed camelize r.distinct hvalue)
  · rintro ⟨hfree, value, hvalue, rfl⟩
    obtain ⟨C, hliteral, hC⟩ := exists_calls lib literal heap hl
    refine ⟨C, _, hliteral, (hcalls C hliteral).mpr ?_,
      ⟨(r.compiles_iff camelize).mpr hfree, r.builder_ends camelize hp⟩, ?_⟩
    · intro x hx f hf t hmade
      have hsilent : ¬ f.Silent := fun hs => by
        rw [(f.made_eq_none camelize).mpr hs] at hmade
        cases hmade
      have hgives := hvalue x hx f (mem_written.mpr ⟨hf, hsilent⟩)
      obtain rfl := Option.some.inj ((hgives.made camelize hliteral hC).symm.trans hmade)
      exact hgives
    · cases hx : p.bind heap with
      | none => rfl
      | some x =>
        exact (congrArg lib.newObject (objectOf_keyed camelize r.distinct fun f hf =>
          (hvalue x hx f hf).made camelize hliteral hC)).symm

/-- What the builder of a list gives: for each node, an object of what the calls written for the
fields give in the first one. -/
theorem ListDef.gives_iff (hl : Linkable (builders camelize defs)) (l : ListDef)
    (hd : l.struct ∈ defs) {nodes : List (Node Value)} (hlinked : Linked heap p nodes) (t : κ) :
    Gives lib literal heap (builders camelize defs) (builderName camelize l.name) [.pointer p] t ↔
      l.NameFree camelize ∧ ∃ value : Text → κ,
        (∀ x₀ ∈ nodes.head?, ∀ f ∈ written l.members,
          FieldGives camelize lib literal heap (builders camelize defs) x₀ f (value f.name)) ∧
        t = lib.newArray
          (List.replicate nodes.length (lib.newObject (keyed (written l.members) value))) := by
  have hfn : l.struct.stmts camelize ∈ builders camelize defs := List.mem_map_of_mem hd
  have hcalls : ∀ C : Calls Value κ, C.literal = literal → l.NameFree camelize →
      (CallsGive lib literal heap (builders camelize defs) p (l.struct.stmts camelize) C ↔
        ∀ x, p.bind heap = some x → ∀ f ∈ l.members, ∀ t, f.made camelize C x = some t →
          FieldGives camelize lib literal heap (builders camelize defs) x f t) := by
    intro C hliteral hfree
    rw [← adds_give_iff camelize hliteral (l.notCursor camelize hfree), l.stmts_eq camelize]
    simp [CallsGive, loopCode, tailCode]
  have hhead : p.bind heap = nodes.head? := by
    cases hlinked with
    | nil => rfl
    | cons hx h => exact hx
  refine (Gives.builder_iff hl hfn).trans ?_
  constructor
  · rintro ⟨C, json, hliteral, hgive, ⟨hcompiles, hends⟩, rfl⟩
    have hfree := (l.compiles_iff camelize).mp hcompiles
    refine ⟨hfree, ?_⟩
    obtain rfl : json = .array (l.built camelize C nodes) := Option.some.inj
      (hends.unique (l.builder_ends camelize (l.notCursor camelize hfree) hlinked))
    have hgive := (hcalls C hliteral hfree).mp hgive
    rw [hhead] at hgive
    cases nodes with
    | nil => exact ⟨fun _ => lib.newInt 0, by simp, rfl⟩
    | cons x₀ xs =>
      obtain ⟨value, hvalue⟩ := exists_value camelize lib C x₀ l.members_nodup
      refine ⟨value, ?_, ?_⟩
      · rintro _ ⟨⟩ f hf
        exact hgive x₀ rfl f (mem_written.mp hf).1 _ (hvalue f hf)
      · rw [← objectOf_keyed camelize l.members_nodup hvalue, ← List.map_replicate]
        rfl
  · rintro ⟨hfree, value, hvalue, rfl⟩
    obtain ⟨C, hliteral, hC⟩ := exists_calls lib literal heap hl
    refine ⟨C, _, hliteral, (hcalls C hliteral hfree).mpr ?_, ⟨(l.compiles_iff camelize).mpr hfree,
      l.builder_ends camelize (l.notCursor camelize hfree) hlinked⟩, ?_⟩
    · intro x hx f hf t hmade
      have hsilent : ¬ f.Silent := fun hs => by
        rw [(f.made_eq_none camelize).mpr hs] at hmade
        cases hmade
      have hgives := hvalue x (hhead ▸ hx) f (mem_written.mpr ⟨hf, hsilent⟩)
      obtain rfl := Option.some.inj ((hgives.made camelize hliteral hC).symm.trans hmade)
      exact hgives
    · cases nodes with
      | nil => rfl
      | cons x₀ xs =>
        rw [← objectOf_keyed camelize l.members_nodup fun f hf =>
          (hvalue x₀ rfl f hf).made camelize hliteral hC, ← List.map_replicate]
        rfl

/-- The builder of a record, where the calls for its fields give values. -/
theorem RecordDef.gives (hl : Links camelize defs) (r : RecordDef) (hd : r.struct ∈ defs)
    {a : Nat} {x : Node Value} (hx : heap a = some x) {value : Text → κ}
    (h : ∀ f ∈ r.members,
      FieldGives camelize lib literal heap (builders camelize defs) x f (value f.name)) :
    Gives lib literal heap (builders camelize defs) (builderName camelize r.name)
      [.pointer (some a)] (lib.newObject (keyed r.members value)) := by
  have hbind : (some a).bind heap = some x := hx
  have hwritten : written r.members = r.members :=
    List.filter_eq_self.mpr fun f hf => by simpa using (h f hf).not_silent
  refine (r.gives_iff camelize hl.linkable hd (Or.inr (by rw [hbind]; rfl)) _).mpr
    ⟨(r.compiles_iff camelize).mp (hl.compiles _ hd), value, ?_, ?_⟩
  · intro y hy f hf
    obtain rfl := Option.some.inj (hbind.symm.trans hy)
    exact h f (mem_written.mp hf).1
  · rw [hbind, hwritten]
    rfl

/-- The builder of a list, where the calls for the fields of nodes like its first one give
values. -/
theorem ListDef.gives (hl : Links camelize defs) (l : ListDef) (hd : l.struct ∈ defs)
    {xs ys : List (Node Value)} (hlinked : Linked heap p xs) (hys : Reading.asBuilt.nodes xs ys)
    {value : Node Value → Text → κ}
    (h : ∀ y ∈ ys, ∀ f ∈ l.members, FieldGives camelize lib literal heap
      (builders camelize defs) y f (value y f.name)) :
    Gives lib literal heap (builders camelize defs) (builderName camelize l.name)
      [.pointer p] (lib.newArray (ys.map fun y => lib.newObject (keyed l.members (value y)))) := by
  have hfree := (l.compiles_iff camelize).mp (hl.compiles _ hd)
  obtain ⟨hlength, hfirst⟩ := hys
  refine (l.gives_iff camelize hl.linkable hd hlinked _).mpr ⟨hfree, ?_⟩
  cases ys with
  | nil =>
    obtain rfl := List.length_eq_zero_iff.mp hlength.symm
    exact ⟨fun _ => lib.newInt 0, by simp, rfl⟩
  | cons y₀ ys =>
    have hwritten : written l.members = l.members := List.filter_eq_self.mpr fun f hf => by
      simpa using (h y₀ List.mem_cons_self f hf).not_silent
    obtain ⟨x₀, xs, rfl⟩ := List.exists_cons_of_length_eq_add_one hlength.symm
    -- whichever of the nodes is shown, its fields give what those of the first one do
    have hnode : ∀ y ∈ y₀ :: ys, ∀ f ∈ l.members, FieldGives camelize lib literal heap
        (builders camelize defs) x₀ f (value y f.name) :=
      fun y hy f hf => (h y hy f hf).congr camelize (hfirst y hy x₀ rfl)
    have hsame : ∀ y ∈ y₀ :: ys, keyed l.members (value y) = keyed l.members (value y₀) := by
      intro y hy
      funext key
      unfold keyed
      split
      · next hkey =>
        obtain ⟨f, hf, rfl⟩ := List.mem_map.mp hkey
        rw [(hnode y hy f hf).unique camelize hl.linkable (hnode y₀ List.mem_cons_self f hf)]
      · rfl
    refine ⟨value y₀, ?_, ?_⟩
    · rintro _ ⟨⟩ f hf
      exact hnode y₀ List.mem_cons_self f (mem_written.mp hf).1
    · rw [hwritten, ← hlength, ← List.map_const']
      refine congrArg lib.newArray (List.map_congr_left fun y hy => ?_)
      rw [hsame y hy]

/-- A field of a kind is written as its kind says, and gives what a call of that function gives. -/
theorem FieldGives.of_kind {x : Node Value} {f : Field} {k : Kind} {t : κ} (hk : f.kind = some k)
    (h : Gives lib literal heap fns (k.value camelize f.name).method
      ((k.value camelize f.name).args.map (Arg.of literal x)) t) :
    FieldGives camelize lib literal heap fns x f t :=
  ⟨_, Field.value_of_kind camelize hk, h⟩

/-- What `buildArray` gives: the first bytes. -/
theorem Gives.of_array {bs : List UInt8} {n : Int} {vs : List Int} {type : Text}
    (h : Reading.asBuilt.array type bs n vs) : Gives lib literal heap fns (txt "buildArray")
      [.bytes bs, .number n] (lib.newArray (vs.map lib.newInt)) := by
  obtain ⟨hle, rfl⟩ := h
  refine .buildArray ?_
  unfold runBuildArray
  rw [arrayLoop_eq lib bs _ 0 (by omega)]
  simp [Function.comp_def]

/-- What the data shows is given.  The induction is on what is shown: a builder calls the builders
of the structs that are pointed to. -/
theorem Means.given (hl : Links camelize defs) {S : Subject} {t : κ}
    (h : Means .asBuilt lib literal heap defs S t) : Given camelize lib literal heap defs S t := by
  induction h with
  | null r =>
    intro hd
    exact (r.gives_iff camelize hl.linkable hd (Or.inl rfl) _).mpr
      ⟨(r.compiles_iff camelize).mp (hl.compiles _ hd), fun _ => lib.newInt 0, by simp, rfl⟩
  | @record r a x value hx h ih =>
    intro hd
    exact r.gives camelize hl hd hx ih
  | list l hlinked hr h ih =>
    intro hd
    exact l.gives camelize hl hd hlinked hr ih
  | @number x f n hk hv =>
    refine FieldGives.of_kind camelize hk ?_
    simp only [Kind.value, List.map_cons, List.map_nil, Arg.of, hv]
    exact .newInt n
  | @text x f type bs hk hv =>
    refine FieldGives.of_kind camelize hk ?_
    simp only [Kind.value, List.map_cons, List.map_nil, Arg.of, hv]
    exact .newString bs
  | @array x f type len bs n vs hk hv hn hvs =>
    refine FieldGives.of_kind camelize hk ?_
    simp only [Kind.value, buildArray, List.map_cons, List.map_nil, hn]
    simp only [Arg.of, hv]
    exact .of_array hvs
  | @pointer x f d p t hd hk hv h ih =>
    refine FieldGives.of_kind camelize hk ?_
    simp only [Kind.value, List.map_cons, List.map_nil, Arg.of, hv]
    exact ih hd

/-- What is shown in a reading is shown in one that allows more. -/
theorem Means.mono {R R' : Reading} (hnodes : ∀ xs ys, R.nodes xs ys → R'.nodes xs ys)
    (harray : ∀ type bs n vs, R.array type bs n vs → R'.array type bs n vs)
    (htext : ∀ type, R.text type → R'.text type) {S : Subject} {t : κ}
    (h : Means R lib literal heap defs S t) : Means R' lib literal heap defs S t := by
  induction h with
  | null r => exact .null r
  | record r hx h ih => exact .record r hx ih
  | list l hlinked hr h ih => exact .list l hlinked (hnodes _ _ hr) ih
  | number hk hv => exact .number hk hv
  | text hk hv ht => exact .text hk hv (htext _ ht)
  | array hk hv hn hvs => exact .array hk hv hn (harray _ _ _ _ hvs)
  | pointer hd hk hv h ih => exact .pointer hd hk hv ih

/-- What the data shows of a struct is what its function gives, and since a call gives one value,
nothing else is. -/
theorem Means.gives_iff (hl : Links camelize defs) {d : StructDef} (hd : d ∈ defs) {p : Option Nat}
    {t : κ} (h : Means .asBuilt lib literal heap defs (.struct d p) t) (t' : κ) :
    Gives lib literal heap (builders camelize defs) (builderName camelize d.name) [.pointer p] t' ↔
      t' = t := by
  have hgives := h.given camelize hl hd
  constructor
  · intro ht'
    exact ht'.unique hl.linkable hgives
  · rintro rfl
    exact hgives

/-- **The program gives what the data shows**, in its own reading, and nothing else.  The program
is the one that is made of a file of structs. -/
theorem program_iff {data : Text} {defs : List StructDef} (h : Reads data defs) (hne : defs ≠ [])
    (hl : Links camelize defs) : ∃ g, generate camelize data = some g ∧
      ∀ (lib : JsonLib κ) (literal : Text → Value) (heap : Nodes Value), ∀ d ∈ defs,
        ∀ (p : Option Nat) (t : κ), Means .asBuilt lib literal heap defs (.struct d p) t →
          ∀ t', Gives lib literal heap (functionsOf g.stmts) (builderName camelize d.name)
            [.pointer p] t' ↔ t' = t := by
  obtain ⟨g, hg, hstmts⟩ := generate_stmts camelize h hne
  refine ⟨g, hg, ?_⟩
  rw [hstmts, functionsOf_builders]
  intro lib literal heap d hd p t hmeans t'
  exact hmeans.gives_iff camelize hl hd t'

/-- **Where the plain reading agrees, it gives the data as it is**: where the nodes of every list
have the members of its first one, and the elements of every array are its bytes and fewer than
256. -/
theorem program_faithful {data : Text} {defs : List StructDef} (h : Reads data defs)
    (hne : defs ≠ []) (hl : Links camelize defs) : ∃ g, generate camelize data = some g ∧
      ∀ (M : Memory) (lib : JsonLib κ) (literal : Text → Value) (heap : Nodes Value), ∀ d ∈ defs,
        ∀ (p : Option Nat) (t : κ),
          Means ((Reading.plain M).both .asBuilt) lib literal heap defs (.struct d p) t →
            Means (.plain M) lib literal heap defs (.struct d p) t ∧
            ∀ t', Gives lib literal heap (functionsOf g.stmts) (builderName camelize d.name)
              [.pointer p] t' ↔ t' = t := by
  obtain ⟨g, hg, hstmts⟩ := generate_stmts camelize h hne
  refine ⟨g, hg, ?_⟩
  rw [hstmts, functionsOf_builders]
  intro M lib literal heap d hd p t hmeans
  constructor
  · exact Means.mono (R := (Reading.plain M).both .asBuilt) (fun _ _ h => h.1)
      (fun _ _ _ _ h => h.1) (fun _ h => h.1) hmeans
  · have hown : Means .asBuilt lib literal heap defs (.struct d p) t :=
      Means.mono (R := (Reading.plain M).both .asBuilt) (fun _ _ h => h.2)
        (fun _ _ _ _ h => h.2) (fun _ h => h.2) hmeans
    exact hown.gives_iff camelize hl hd

end

/-! ## 6. A radio and its rates -/

/-- The number that bytes are, the lowest first. -/
def fromBytes (bs : List UInt8) : Int := bs.foldr (fun b n => b.toNat + 256 * n) 0

/-- How many bytes an element has. -/
def width (type : Text) : Nat :=
  if type = txt "uint16_t" then 2 else if type = txt "uint32_t" then 4 else 1

/-- A memory with the lowest byte of a number first. -/
def littleEndian : Memory where
  elements type bs := (List.range (bs.length / width type)).map fun i =>
    let n := fromBytes ((bs.drop (i * width type)).take (width type))
    if type = txt "int8_t" then n.bmod 256 else n
  uint8 bs := by
    have hwidth : width (txt "uint8_t") = 1 := by decide
    have hsigned : txt "uint8_t" ≠ txt "int8_t" := by decide
    refine List.ext_getElem (by simp [hwidth]) fun i hi hi' => ?_
    have hlt : i < bs.length := by simpa using hi'
    have hbyte : fromBytes ((bs.drop i).take 1) = bs[i].toNat := by
      rw [List.drop_eq_getElem_cons hlt, List.take_succ_cons, List.take_zero]
      exact Int.add_zero _
    rw [List.getElem_map, List.getElem_map, List.getElem_range]
    simp only [if_neg hsigned, hwidth, Nat.mul_one]
    exact hbyte

example : littleEndian.elements (txt "uint16_t") [1, 0, 2, 1] = [1, 258] := by decide

def radioText : Text :=
  rateText ++ txt "typedef struct radio \x7b\n    uint8_t id;\n" ++
    txt "    uint8_t mac[2];\n    rate_t *rates;\n\x7d radio;\n"

def radioDef : RecordDef :=
  { name := txt "radio", first := .scalar (txt "uint8_t") (txt "id"),
    rest := [.array (txt "uint8_t") (txt "mac") (txt "2"),
      .pointer (txt "rate_t") (txt "rates")], opens := by decide, notNext := by decide,
    notLast := by decide, distinct := by decide, notCursor := by decide }

/-- The sum of the rates and of the address. -/
def sums : JsonLib Int where
  newInt n := n
  newString _ := 0
  newArray os := os.foldr Int.add 0
  newObject o := (o (txt "bps")).getD 0 + (o (txt "mac")).getD 0 + (o (txt "rates")).getD 0

/-- A radio with two rates. -/
def radioHeap (bps : Int) : Nodes Value
  | 0 => some ⟨fun name =>
      if name = txt "id" then .number 1
      else if name = txt "mac" then .bytes [3, 4]
      else .pointer (some 1), none⟩
  | 1 => some ⟨fun _ => .number 6, some 2⟩
  | 2 => some ⟨fun _ => .number bps, none⟩
  | _ => none

/-- The literal `2`. -/
def two (_ : Text) : Value := .number 2

theorem radio_reads : Reads radioText [rateDef.struct, radioDef.struct] := by decide +kernel

theorem radio_links : Links id [rateDef.struct, radioDef.struct] where
  compiles := by
    unfold Compiles
    decide +kernel
  linkable := { names := by decide +kernel, own := by decide +kernel }

/-- The radio shows the first rate twice, in a reading where its list may. -/
theorem radio_means {R : Reading} {bps : Int} {x y z : Node Value}
    (hx : radioHeap bps 1 = some x) (hy : radioHeap bps 2 = some y)
    (hz : z.member = x.member) (hnodes : R.nodes [x, y] [x, z])
    (harray : R.array (txt "uint8_t") [3, 4] 2 [3, 4]) :
    Means R sums two (radioHeap bps) [rateDef.struct, radioDef.struct]
      (.struct radioDef.struct (some 0)) 19 := by
  have hlinked : Linked (radioHeap bps) (some 1) [x, y] := by
    obtain rfl := Option.some.inj hx
    obtain rfl := Option.some.inj hy
    exact .cons hx (.cons hy .nil)
  have hmember : ∀ y ∈ [x, z], ∀ name, y.member name = .number 6 := by
    obtain rfl := Option.some.inj hx
    intro y hy name
    rcases List.mem_pair.mp hy with rfl | rfl
    · rfl
    · rw [hz]
  let value : Text → Int := fun name =>
    if name = txt "id" then 1 else if name = txt "mac" then 7 else 12
  let rates : Node Value → Text → Int := fun _ _ => 6
  have hrates : ∀ y ∈ [x, z], ∀ f ∈ rateDef.members, Means R sums two
      (radioHeap bps) [rateDef.struct, radioDef.struct] (.field y f) (rates y f.name) := by
    intro y hy f hf
    rcases List.mem_pair.mp hf with rfl | rfl
    · exact .number rfl (hmember y hy _)
    · exact .number rfl (hmember y hy _)
  have hsum : sums.newObject (keyed rateDef.members fun _ => 6) = 6 := by decide
  have hlist := Means.list rateDef hlinked hnodes hrates
  simp only [rates, hsum] at hlist
  obtain ⟨r, hr⟩ : ∃ r, radioHeap bps 0 = some r := ⟨_, rfl⟩
  have hfields : ∀ f ∈ radioDef.members, Means R sums two (radioHeap bps)
      [rateDef.struct, radioDef.struct] (.field r f) (value f.name) := by
    obtain rfl := Option.some.inj hr
    intro f hf
    simp only [radioDef, RecordDef.members, List.mem_cons, List.not_mem_nil, or_false] at hf
    rcases hf with rfl | rfl | rfl
    · exact .number rfl rfl
    · exact Means.array (n := 2) rfl rfl rfl harray
    · refine Means.pointer (d := rateDef.struct) List.mem_cons_self rfl rfl ?_
      exact hlist
  have hradio := Means.record radioDef hr hfields
  have hsum : sums.newObject (keyed radioDef.members value) = 19 := by decide
  rw [hsum] at hradio
  exact hradio

/-- Of two different rates, the program gives the first one twice. -/
theorem program_iff_radio : ∃ g, generate id radioText = some g ∧
    ∀ t', Gives sums two (radioHeap 9) (functionsOf g.stmts)
      (builderName id radioDef.name) [.pointer (some 0)] t' ↔ t' = 19 := by
  obtain ⟨g, hg, hprogram⟩ := @program_iff id Int _ _ radio_reads (by simp) radio_links
  refine ⟨g, hg, hprogram sums _ (radioHeap 9) radioDef.struct (by simp) (some 0) 19 ?_⟩
  refine radio_means rfl rfl rfl ⟨rfl, fun y hy x hx => ?_⟩ ⟨by decide, by decide⟩
  obtain rfl := Option.some.inj hx
  rcases List.mem_pair.mp hy with rfl | rfl <;> rfl

theorem program_faithful_radio : ∃ g, generate id radioText = some g ∧
    Means (.plain littleEndian) sums two (radioHeap 6) [rateDef.struct, radioDef.struct]
      (.struct radioDef.struct (some 0)) 19 ∧
    ∀ t', Gives sums two (radioHeap 6) (functionsOf g.stmts)
      (builderName id radioDef.name) [.pointer (some 0)] t' ↔ t' = 19 := by
  obtain ⟨g, hg, hprogram⟩ := @program_faithful id Int _ _ radio_reads (by simp) radio_links
  refine ⟨g, hg, hprogram littleEndian sums _ (radioHeap 6) radioDef.struct (by simp) (some 0) 19
    ?_⟩
  refine radio_means (z := ⟨fun _ => .number 6, none⟩) rfl rfl rfl ⟨rfl, rfl, fun y hy x hx => ?_⟩
    (Reading.both_uint8 littleEndian (by decide) (by decide) (by decide))
  obtain rfl := Option.some.inj hx
  rcases List.mem_pair.mp hy with rfl | rfl <;> rfl

end Capwap.Script
