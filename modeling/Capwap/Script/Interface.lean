/-
# The generator of JSON builders

`src/script/interface.js` reads `head.h` line by line and writes, for each struct it finds there, a
C function that builds a JSON object out of one.  `parseLine` is the function of that name: a line
is tried against ten patterns, and each that matches writes some statements and moves the context,
of which `last` says what kind of line came before.

A statement written is a `Stmt`, and `Stmt.text` is its text.  What `parseLine` does with a line is
decided by what its patterns find there (`found`, `parseLine_found`), and what it writes by what was
found, the struct's name, and whether the line is the struct's first (`Gen.field_spec`).  So for a
file made of structs it writes one function for each (`generate_stmts`).

`camelize` is that of the package `string`.  The text around the functions is fixed, and left out.
-/
import Mathlib.Data.List.Basic
import Capwap.Lib.Pattern

namespace Capwap.Script

open Pattern

abbrev Text : Type := List Char

def txt (s : String) : Text := s.toList

/-! ## 1. Patterns

The regular expressions of the program are sequences of pieces, for the library's matcher
(`Lib/Pattern.lean`).  Each of them is written out next to its source. -/

/-- `\w` -/
def isWord (c : Char) : Bool := c.isAlphanum || c == '_'

/-- `\s` -/
def isSpace (c : Char) : Bool :=
  c.toNat ∈ [9, 10, 11, 12, 13, 32, 0xa0, 0x1680, 0x2028, 0x2029, 0x202f, 0x205f, 0x3000, 0xfeff] ||
    (0x2000 ≤ c.toNat && c.toNat ≤ 0x200a)

/-- `.` -/
def isAny (c : Char) : Bool := !(c.toNat ∈ [10, 13, 0x2028, 0x2029])

abbrev Items : Type := List (Piece Char)

def lit (s : String) : Items := exactly (txt s)

def space : Items := [.plus isSpace]

/-- `(\w+)` -/
def word : Items := [.group isWord]

/-- `/\s+\/\/\s+/` -/
def commentLine : Items := space ++ lit "//" ++ space

/-- `/typedef\s+struct\s+(\w+)\s+{/` -/
def typedefLine : Items :=
  lit "typedef" ++ space ++ lit "struct" ++ space ++ word ++ space ++ lit "\x7b"

/-- `/\s+(\w+)\s+macAddr\[\];/` -/
def macAddrLine : Items := space ++ word ++ space ++ lit "macAddr[];"

/-- `/\s+(\w+)\s+macAddr\[CW_MAC_ADDR_LEN_MAX\];/` -/
def macAddrMaxLine : Items := space ++ word ++ space ++ lit "macAddr[CW_MAC_ADDR_LEN_MAX];"

/-- `/\s+(\w+)\s+macAddr\[ETH_ALEN\];/` -/
def macAddrEthLine : Items := space ++ word ++ space ++ lit "macAddr[ETH_ALEN];"

/-- `/\s+(\w+)\s+key\[CW_KEY_LEN_MAX\];/` -/
def keyLine : Items := space ++ word ++ space ++ lit "key[CW_KEY_LEN_MAX];"

/-- `/\s+(\w+)\s+(\w+)\[(\d+)\];/` -/
def arrayLine : Items :=
  space ++ word ++ space ++ word ++ lit "[" ++ [Piece.group Char.isDigit] ++ lit "];"

/-- `/\s+(\w+)\s+(\w+);/` -/
def scalarLine : Items := space ++ word ++ space ++ word ++ lit ";"

/-- `/\s+(\w+)\s+\*(\w+);/` -/
def pointerLine : Items := space ++ word ++ space ++ lit "*" ++ word ++ lit ";"

/-- `/.*?(\w+)\s+:\s+\d+[,;]/` -/
def bitsetLine : Items :=
  [Piece.lazy isAny] ++ word ++ space ++ lit ":" ++ space ++ [Piece.plus Char.isDigit] ++
    [Piece.one fun c => c == ',' || c == ';']

/-- `/}.*?(\w+);/` -/
def endLine : Items := lit "\x7d" ++ [Piece.lazy isAny] ++ word ++ lit ";"

/-! ## 2. Statements

What is written are lines of C in a few fixed forms, so the generator's output is a list of these,
each with the names that went into it.  `render` gives the line as the program writes it. -/

/-- An argument of a call: a member of the struct that a variable points to, or a text. -/
inductive Arg
  | member (pointer name : Text)
  | text (t : Text)
deriving DecidableEq

/-- A call that makes a JSON value. -/
structure Expr where
  method : Text
  args : List Arg
deriving DecidableEq

/-- The variables for JSON values. -/
inductive Var
  | obj
  | array
deriving DecidableEq

/-- A statement, as far as the generator writes one with one `toSource`.  The head of a function
and the declaration of its cursor are statements here, and so is every closing brace. -/
inductive Stmt
  /-- `struct json_object* build..(struct type *type) {` -/
  | head (function type : Text)
  /-- `struct json_object *array = json_object_new_array();` -/
  | newArray
  /-- `struct type *e = type;` -/
  | cursor (type : Text)
  /-- `while (e) {` -/
  | loop
  /-- `struct json_object *obj = json_object_new_object();` -/
  | newObj
  /-- `if (type) {` -/
  | test (type : Text)
  /-- `json_object_object_add(obj, "key", value);` -/
  | add (key : Text) (value : Expr)
  /-- `json_object_array_add(array, obj);` -/
  | push
  /-- `e = e->next;` -/
  | next
  /-- `}` -/
  | close
  /-- `return v;` -/
  | ret (v : Var)
deriving DecidableEq

def Arg.render : Arg → Text
  | .member pointer name => pointer ++ txt "->" ++ name
  | .text t => t

def Expr.render (e : Expr) : Text :=
  e.method ++ txt "(" ++ List.intercalate (txt ", ") (e.args.map Arg.render) ++ txt ")"

def Var.render : Var → Text
  | .obj => txt "obj"
  | .array => txt "array"

/-- A statement's text, without its indent and the end of its line. -/
def Stmt.render : Stmt → Text
  | .head function type =>
    txt "\r\nstruct json_object* " ++ function ++ txt "(struct " ++ type ++ txt " *" ++
      type ++ txt ") \x7b"
  | .newArray => txt "struct json_object *array = json_object_new_array();"
  | .cursor type => txt "struct " ++ type ++ txt " *e = " ++ type ++ txt ";"
  | .loop => txt "while (e) \x7b"
  | .newObj => txt "struct json_object *obj = json_object_new_object();"
  | .test type => txt "if (" ++ type ++ txt ") \x7b"
  | .add key value =>
    txt "json_object_object_add(obj, \"" ++ key ++ txt "\", " ++ value.render ++ txt ");"
  | .push => txt "json_object_array_add(array, obj);"
  | .next => txt "e = e->next;"
  | .close => txt "\x7d"
  | .ret v => txt "return " ++ v.render ++ txt ";"

/-! ## 3. `parseLine`

The context of the program is an object with three properties, and two files are written to as it
goes.  Each pattern has a function of its own here, for what the program does when it matches;
`parseLine` tries them one after the other, and a line may match several. -/

/-- What `context.last` says. -/
inductive Last
  | start
  | attribute
  | pointer
  | next
  | bitset
  | ended
deriving DecidableEq

/-- The context, and what has been written to the two files: to the source, statements with their
indents, and to the header, the functions' declarations. -/
structure Gen where
  type : Text
  last : Option Last
  indent : Text
  source : List (Text × Stmt)
  header : List Text

/-- The context is `{}` at first, and what is not there is written `undefined`. -/
def Gen.init : Gen :=
  { type := txt "undefined", last := none, indent := txt "undefined", source := [],
    header := [] }

@[simp] def Gen.toSource (g : Gen) (indent : Text) (stmt : Stmt) : Gen :=
  { g with source := g.source ++ [(indent, stmt)] }

@[simp] def Gen.toHeader (g : Gen) (text : Text) : Gen := { g with header := g.header ++ [text] }

/-- `toSource(context.indent + ...)` -/
@[simp] def Gen.line (g : Gen) (stmt : Stmt) : Gen := g.toSource g.indent stmt

/-- `context.type + '->' + name` -/
@[simp] def Gen.member (g : Gen) (name : Text) : Arg := .member g.type name

/-- `build` with the name of a struct. -/
def builderName (camelize : Text → Text) (type : Text) : Text :=
  txt "build" ++ camelize ('-' :: type)

def getNewMethod (camelize : Text → Text) (type : Text) : Text :=
  if type = txt "int8_t" ∨ type = txt "uint8_t" ∨ type = txt "uint16_t" ∨
      type = txt "uint32_t" then txt "json_object_new_int"
  else
    match find ([.group isWord] ++ lit "_t") type with
    | some parts => builderName camelize (parts.getD 0 [])
    | none => txt "UnsupportType_" ++ type

/-- A typedef. -/
def Gen.typedef (camelize : Text → Text) (g : Gen) (name : Text) : Gen :=
  let g := { g with type := name, last := some .start }
  let g := g.toSource [] (.head (builderName camelize g.type) g.type)
  let g := g.toHeader (txt "struct json_object* " ++ builderName camelize g.type ++
    txt "(struct " ++ g.type ++ txt " *" ++ g.type ++ txt ");\r\n")
  { g with indent := txt "    " }

def buildArray (array size : Arg) : Expr := ⟨txt "buildArray", [array, size]⟩

/-- `macAddr[];` -/
def Gen.macAddr (g : Gen) : Gen :=
  let g := g.line (.add (txt "macAddr")
    (buildArray (g.member (txt "macAddr")) (g.member (txt "macLen"))))
  { g with last := some .attribute }

/-- `macAddr[CW_MAC_ADDR_LEN_MAX];` -/
def Gen.macAddrMax (g : Gen) : Gen :=
  let g := g.line (.add (txt "macAddr")
    (buildArray (g.member (txt "macAddr")) (g.member (txt "macLen"))))
  { g with last := some .attribute }

/-- The object is declared, and the block for a struct that is there is opened. -/
@[simp] def Gen.openBlock (g : Gen) : Gen :=
  let g := g.line .newObj
  let g := g.line (.test g.type)
  { g with indent := txt "        " }

/-- `macAddr[ETH_ALEN];` -/
def Gen.macAddrEth (g : Gen) : Gen :=
  let add := fun g : Gen => g.line (.add (txt "macAddr")
    (buildArray (g.member (txt "macAddr")) (.text (txt "ETH_ALEN"))))
  let g := if g.last = some .start then add g.openBlock else add g
  { g with last := some .attribute }

/-- `key[CW_KEY_LEN_MAX];` -/
def Gen.keyMax (g : Gen) : Gen :=
  let g := g.line (.add (txt "key")
    (buildArray (g.member (txt "key")) (g.member (txt "kLen"))))
  { g with last := some .attribute }

/-- `value[len];`, where a length of 0 means that it is in another member; which one it is depends
on the array's name. -/
def Gen.array (g : Gen) (value len : Text) : Gen :=
  let g :=
    if len = txt "0" then
      if value = txt "rates" then
        g.line (.add value (buildArray (g.member value) (g.member (txt "rate_num"))))
      else if value = txt "ie" then
        g.line (.add value (buildArray (g.member value) (g.member (txt "ie_len"))))
      else if value = txt "key" then
        g.line (.add value (buildArray (g.member value) (g.member (txt "kLen"))))
      else g
    else if value = txt "sn" then
      g.line (.add value ⟨txt "json_object_new_string", [g.member value]⟩)
    else if value = txt "slct" then
      g.line (.add value (buildArray (g.member value) (g.member (txt "cnt"))))
    else g.line (.add value (buildArray (g.member value) (.text len)))
  { g with last := some .attribute }

/-- The member `value` is added, by the method for its type. -/
@[simp] def Gen.addMember (camelize : Text → Text) (g : Gen) (key value : Text) : Gen :=
  g.line (.add value ⟨getNewMethod camelize key, [g.member value]⟩)

/-- `key value;`.  The first field of a struct decides whether it is a list: `uint16_t cnt` starts
a loop. -/
def Gen.scalar (camelize : Text → Text) (g : Gen) (key value : Text) : Gen :=
  let g :=
    if g.last = some .start then
      if key = txt "uint16_t" ∧ value = txt "cnt" then
        let g := g.line .newArray
        let g := g.line (.cursor g.type)
        let g := g.line .loop
        let g := { g with indent := txt "        " }
        let g := g.line .newObj
        g.addMember camelize key value
      else g.openBlock.addMember camelize key value
    else g.addMember camelize key value
  { g with last := some .attribute }

/-- `key *value;`.  A pointer called `next` is the end of the loop. -/
def Gen.pointer (camelize : Text → Text) (g : Gen) (key value : Text) : Gen :=
  let g :=
    if g.last = some .start then
      if key = txt "uint16_t" ∧ value = txt "cnt" then
        let g := g.line .newArray
        let g := g.line (.cursor g.type)
        let g := g.line .loop
        let g := { g with indent := txt "      " }
        g.addMember camelize key value
      else g.openBlock.addMember camelize key value
    else if value = txt "next" then
      let g := g.line .push
      let g := g.line .next
      let g := { g with indent := txt "    " }
      g.line .close
    else g.addMember camelize key value
  { g with last := some (if value = txt "next" then .next else .pointer) }

/-- `.. value : number,` -/
def Gen.bitset (g : Gen) (value : Text) : Gen :=
  let g := if g.last = some .start then g.openBlock else g
  let g := g.line (.add value ⟨txt "json_object_new_int", [g.member value]⟩)
  { g with last := some .bitset }

/-- `} ..;`.  Behind the pointer `next` the array is returned, and otherwise the object. -/
def Gen.finish (g : Gen) : Gen :=
  let g :=
    if g.last = some .next then g.line (.ret .array)
    else
      let g := { g with indent := txt "    " }
      let g := g.line .close
      g.line (.ret .obj)
  let g := { g with indent := [] }
  let g := g.toSource [] .close
  { g with last := some .ended }

/-- If a pattern matches the line, its groups are used. -/
def whenFound (items : Items) (line : Text) (act : Gen → List Text → Gen) (g : Gen) : Gen :=
  match find items line with
  | some parts => act g parts
  | none => g

def parseLine (camelize : Text → Text) (g : Gen) (line : Text) : Gen :=
  if (find commentLine line).isSome then g
  else
    let g := whenFound typedefLine line (fun g parts => g.typedef camelize (parts.getD 0 [])) g
    let g := whenFound macAddrLine line (fun g _ => g.macAddr) g
    let g := whenFound macAddrMaxLine line (fun g _ => g.macAddrMax) g
    let g := whenFound macAddrEthLine line (fun g _ => g.macAddrEth) g
    let g := whenFound keyLine line (fun g _ => g.keyMax) g
    let g := whenFound arrayLine line (fun g parts => g.array (parts.getD 1 []) (parts.getD 2 [])) g
    let g := whenFound scalarLine line
      (fun g parts => g.scalar camelize (parts.getD 0 []) (parts.getD 1 [])) g
    let g := whenFound pointerLine line
      (fun g parts => g.pointer camelize (parts.getD 0 []) (parts.getD 1 [])) g
    let g := whenFound bitsetLine line (fun g parts => g.bitset (parts.getD 0 [])) g
    whenFound endLine line (fun g _ => g.finish) g

/-- The line at the start of a text, and the lines after it that are not empty. -/
def cutLines : Text → Text × List Text
  | [] => ([], [])
  | c :: data =>
    let (line, lines) := cutLines data
    if c = '\r' ∨ c = '\n' then ([], if line = [] then lines else line :: lines)
    else (c :: line, lines)

/-- `data.match(/[^\r\n]+/g)` -/
def splitLines (data : Text) : List Text :=
  let (line, lines) := cutLines data
  if line = [] then lines else line :: lines

/-- The lines of a file.  There is no list of lines when the file has none, and the program throws.
-/
def generate (camelize : Text → Text) (data : Text) : Option Gen :=
  match splitLines data with
  | [] => none
  | lines => some (lines.foldl (parseLine camelize) .init)

/-! ## 4. What a line says

What `parseLine` does with a line depends on the line only through what its patterns find there.
So later proofs are about lists of finds, and texts come back in `Script/Lines.lean` only. -/

/-- A field of one of the shapes that are recognised; `type` is the type of an array's elements,
which the generator ignores. -/
inductive Field
  | macAddr (type : Text)
  | macAddrMax (type : Text)
  | macAddrEth (type : Text)
  | keyMax (type : Text)
  | array (type value len : Text)
  | scalar (key value : Text)
  | pointer (key value : Text)
  | bitset (value : Text)
deriving DecidableEq

/-- What a pattern finds in a line. -/
inductive Found
  | typedef (name : Text)
  | field (f : Field)
  | finish
deriving DecidableEq

/-- What is found in a line, in the order of the patterns. -/
def found (line : Text) : List Found :=
  if (find commentLine line).isSome then []
  else
    (find typedefLine line).toList.map (fun parts => Found.typedef (parts.getD 0 [])) ++
    (find macAddrLine line).toList.map (fun parts => Found.field (.macAddr (parts.getD 0 []))) ++
    (find macAddrMaxLine line).toList.map
      (fun parts => Found.field (.macAddrMax (parts.getD 0 []))) ++
    (find macAddrEthLine line).toList.map
      (fun parts => Found.field (.macAddrEth (parts.getD 0 []))) ++
    (find keyLine line).toList.map (fun parts => Found.field (.keyMax (parts.getD 0 []))) ++
    (find arrayLine line).toList.map
      (fun parts =>
        Found.field (.array (parts.getD 0 []) (parts.getD 1 []) (parts.getD 2 []))) ++
    (find scalarLine line).toList.map
      (fun parts => Found.field (.scalar (parts.getD 0 []) (parts.getD 1 []))) ++
    (find pointerLine line).toList.map
      (fun parts => Found.field (.pointer (parts.getD 0 []) (parts.getD 1 []))) ++
    (find bitsetLine line).toList.map (fun parts => Found.field (.bitset (parts.getD 0 []))) ++
    (find endLine line).toList.map (fun _ => Found.finish)

section
variable (camelize : Text → Text)

def Gen.field (g : Gen) : Field → Gen
  | .macAddr _ => g.macAddr
  | .macAddrMax _ => g.macAddrMax
  | .macAddrEth _ => g.macAddrEth
  | .keyMax _ => g.keyMax
  | .array _ value len => g.array value len
  | .scalar key value => g.scalar camelize key value
  | .pointer key value => g.pointer camelize key value
  | .bitset value => g.bitset value

def Gen.on (g : Gen) : Found → Gen
  | .typedef name => g.typedef camelize name
  | .field f => g.field camelize f
  | .finish => g.finish

theorem foldl_whenFound (items : Items) (line : Text) (say : List Text → Found) (g : Gen) :
    ((find items line).toList.map say).foldl (Gen.on camelize) g
      = whenFound items line (fun g parts => g.on camelize (say parts)) g := by
  unfold whenFound
  cases find items line with
  | none => rfl
  | some parts => rfl

/-- A line does what is found in it. -/
theorem parseLine_found (g : Gen) (line : Text) :
    parseLine camelize g line = (found line).foldl (Gen.on camelize) g := by
  unfold parseLine found
  by_cases hcomment : (find commentLine line).isSome = true
  · rw [if_pos hcomment, if_pos hcomment]
    rfl
  · rw [if_neg hcomment, if_neg hcomment]
    simp only [List.foldl_append, foldl_whenFound]
    rfl

/-- The lines of a text do what is found in them. -/
theorem foldl_parseLine (lines : List Text) (g : Gen) :
    lines.foldl (parseLine camelize) g = (lines.flatMap found).foldl (Gen.on camelize) g := by
  induction lines generalizing g with
  | nil => rfl
  | cons line lines ih =>
    rw [List.foldl_cons, List.flatMap_cons, List.foldl_append, ← parseLine_found, ih]

/-! ## 5. What is written

A field that comes first opens the function's block, or does not, and then it is added like any
other.  `FieldDone` says for every field what it adds to the statements, and what the context says
afterwards. -/

@[simp] def Gen.stmts (g : Gen) : List Stmt := g.source.map (·.2)

namespace Field

/-- The key of a field. -/
def name : Field → Text
  | .macAddr _ | .macAddrMax _ | .macAddrEth _ => txt "macAddr"
  | .keyMax _ => txt "key"
  | .array _ value _ | .scalar _ value | .pointer _ value | .bitset value => value

/-- The pointer `next`. -/
def IsNext : Field → Prop
  | .pointer _ value => value = txt "next"
  | _ => False

instance (f : Field) : Decidable f.IsNext := by
  cases f <;> unfold IsNext <;> infer_instance

/-- The value that a field adds; `type` is the name of the struct.  An array of no length adds
nothing, unless its length is known to be in another member. -/
def value (type : Text) : Field → Option Expr
  | .macAddr _ | .macAddrMax _ =>
    some (buildArray (.member type (txt "macAddr")) (.member type (txt "macLen")))
  | .macAddrEth _ => some (buildArray (.member type (txt "macAddr")) (.text (txt "ETH_ALEN")))
  | .keyMax _ => some (buildArray (.member type (txt "key")) (.member type (txt "kLen")))
  | .array _ value len =>
    if len = txt "0" then
      if value = txt "rates" then
        some (buildArray (.member type value) (.member type (txt "rate_num")))
      else if value = txt "ie" then
        some (buildArray (.member type value) (.member type (txt "ie_len")))
      else if value = txt "key" then
        some (buildArray (.member type value) (.member type (txt "kLen")))
      else none
    else if value = txt "sn" then
      some ⟨txt "json_object_new_string", [.member type value]⟩
    else if value = txt "slct" then
      some (buildArray (.member type value) (.member type (txt "cnt")))
    else some (buildArray (.member type value) (.text len))
  | .scalar key value | .pointer key value =>
    some ⟨getNewMethod camelize key, [.member type value]⟩
  | .bitset value => some ⟨txt "json_object_new_int", [.member type value]⟩

/-- The statement that adds a field, if there is one. -/
def adds (type : Text) (f : Field) : List Stmt := (f.value camelize type).toList.map (.add f.name)

/-- `uint16_t cnt;` -/
def counter : Field := .scalar (txt "uint16_t") (txt "cnt")

/-- `uint16_t *cnt;` -/
def counterPointer : Field := .pointer (txt "uint16_t") (txt "cnt")

/-- One of the fields that, as the first, declares the object. -/
def Opens : Field → Prop
  | .scalar key value | .pointer key value => ¬(key = txt "uint16_t" ∧ value = txt "cnt")
  | .macAddrEth _ | .bitset _ => True
  | .macAddr _ | .macAddrMax _ | .keyMax _ | .array _ _ _ => False

instance (f : Field) : Decidable f.Opens := by
  cases f <;> unfold Opens <;> infer_instance

/-- What is written before a field that comes first: a loop for a counter, a block for a field that
opens one, and nothing for an array. -/
def opener (type : Text) (f : Field) : List Stmt :=
  if f = counter then [.newArray, .cursor type, .loop, .newObj]
  else if f = counterPointer then [.newArray, .cursor type, .loop]
  else if f.Opens then [.newObj, .test type]
  else []

theorem opener_counter (type : Text) :
    counter.opener type = [.newArray, .cursor type, .loop, .newObj] := if_pos rfl

theorem opener_counterPointer (type : Text) :
    counterPointer.opener type = [.newArray, .cursor type, .loop] := by
  unfold opener
  rw [if_neg (by simp [counter, counterPointer]), if_pos rfl]

theorem opener_opens {f : Field} (h : f.Opens) (type : Text) :
    f.opener type = [.newObj, .test type] := by
  have h1 : f ≠ counter := by
    rintro rfl
    exact h ⟨rfl, rfl⟩
  have h2 : f ≠ counterPointer := by
    rintro rfl
    exact h ⟨rfl, rfl⟩
  unfold opener
  rw [if_neg h1, if_neg h2, if_pos h]

/-- What is written for a field that comes first. -/
def opening (type : Text) (f : Field) : List Stmt := f.opener type ++ f.adds camelize type

/-- What is written for a field that comes later. -/
def adding (type : Text) (f : Field) : List Stmt :=
  if f.IsNext then [.push, .next, .close] else f.adds camelize type

end Field

/-- What a field does to the statements and to the context: one case for the first field of a
struct, and one for the others. -/
structure FieldDone (g g' : Gen) (f : Field) : Prop where
  stmts : g'.stmts = g.stmts ++
    if g.last = some .start then f.opening camelize g.type else f.adding camelize g.type
  type : g'.type = g.type
  last : g'.last ≠ some .start ∧ (g'.last = some .next ↔ f.IsNext)

/-- The value is added, whether the field comes first or not. -/
theorem FieldDone.added {g g' : Gen} {f : Field} (hf : ¬ f.IsNext)
    (hopener : f.opener g.type = []) (hstmts : g'.stmts = g.stmts ++ f.adds camelize g.type)
    (htype : g'.type = g.type) (hlast : g'.last = some .attribute) : FieldDone camelize g g' f where
  stmts := by
    unfold Field.opening Field.adding
    rw [if_neg hf, hopener, List.nil_append, ite_self, hstmts]
  type := htype
  last := by
    rw [hlast]
    exact ⟨by simp, ⟨fun h => by simp at h, fun h => absurd h hf⟩⟩

/-- The field comes first. -/
theorem FieldDone.first {g g' : Gen} {f : Field} (hstart : g.last = some .start)
    (hstmts : g'.stmts = g.stmts ++ (f.opener g.type ++ f.adds camelize g.type))
    (htype : g'.type = g.type)
    (hlast : g'.last ≠ some .start ∧ (g'.last = some .next ↔ f.IsNext)) :
    FieldDone camelize g g' f where
  stmts := by
    rw [if_pos hstart]
    exact hstmts
  type := htype
  last := hlast

/-- The field comes later. -/
theorem FieldDone.later {g g' : Gen} {f : Field} (hstart : g.last ≠ some .start)
    (hstmts : g'.stmts = g.stmts ++ f.adding camelize g.type) (htype : g'.type = g.type)
    (hlast : g'.last ≠ some .start ∧ (g'.last = some .next ↔ f.IsNext)) :
    FieldDone camelize g g' f where
  stmts := by
    rw [if_neg hstart]
    exact hstmts
  type := htype
  last := hlast

theorem Gen.macAddrEth_spec (g : Gen) (type : Text) :
    FieldDone camelize g g.macAddrEth (.macAddrEth type) := by
  unfold Gen.macAddrEth
  by_cases hstart : g.last = some .start
  · simp only [if_pos hstart]
    refine .first camelize hstart ?_ rfl (by simp [Field.IsNext])
    rw [Field.opener_opens (f := .macAddrEth type) trivial]
    simp [Field.adds, Field.value, Field.name]
  · simp only [if_neg hstart]
    exact .later camelize hstart
      (by simp [Field.adding, Field.IsNext, Field.adds, Field.value, Field.name]) rfl
      (by simp [Field.IsNext])

theorem Gen.array_spec (g : Gen) (type value len : Text) :
    FieldDone camelize g (g.array value len) (.array type value len) := by
  refine .added camelize (by simp [Field.IsNext]) rfl ?_ ?_ rfl
  · simp only [Gen.array, Field.adds, Field.value, Field.name]
    split_ifs <;> simp
  · unfold Gen.array
    split_ifs <;> rfl

theorem Gen.scalar_spec (g : Gen) (key value : Text) :
    FieldDone camelize g (g.scalar camelize key value) (.scalar key value) := by
  unfold Gen.scalar
  by_cases hstart : g.last = some .start
  · simp only [if_pos hstart]
    by_cases hcnt : key = txt "uint16_t" ∧ value = txt "cnt"
    · simp only [if_pos hcnt]
      refine .first camelize hstart ?_ rfl (by simp [Field.IsNext])
      obtain ⟨rfl, rfl⟩ := hcnt
      rw [show Field.scalar _ _ = Field.counter from rfl, Field.opener_counter]
      simp [Field.adds, Field.value, Field.name, Field.counter]
    · simp only [if_neg hcnt]
      refine .first camelize hstart ?_ rfl (by simp [Field.IsNext])
      rw [Field.opener_opens (f := .scalar key value) hcnt]
      simp [Field.adds, Field.value, Field.name]
  · simp only [if_neg hstart]
    exact .later camelize hstart
      (by simp [Field.adding, Field.IsNext, Field.adds, Field.value, Field.name]) rfl
      (by simp [Field.IsNext])

theorem Gen.pointer_spec (g : Gen) (key value : Text) :
    FieldDone camelize g (g.pointer camelize key value) (.pointer key value) := by
  have hlast : (g.pointer camelize key value).last ≠ some .start ∧
      ((g.pointer camelize key value).last = some .next ↔ (Field.pointer key value).IsNext) := by
    unfold Gen.pointer Field.IsNext
    by_cases hnext : value = txt "next" <;> simp [hnext]
  by_cases hstart : g.last = some .start
  · by_cases hcnt : key = txt "uint16_t" ∧ value = txt "cnt"
    · refine .first camelize hstart ?_ ?_ hlast
      · obtain ⟨rfl, rfl⟩ := hcnt
        rw [show Field.pointer _ _ = Field.counterPointer from rfl, Field.opener_counterPointer]
        simp [Gen.pointer, hstart, Field.adds, Field.value, Field.name, Field.counterPointer]
      · simp [Gen.pointer, hstart, hcnt]
    · refine .first camelize hstart ?_ ?_ hlast
      · rw [Field.opener_opens (f := .pointer key value) hcnt]
        simp [Gen.pointer, hstart, hcnt, Field.adds, Field.value, Field.name]
      · simp [Gen.pointer, hstart, hcnt]
  · by_cases hnext : value = txt "next"
    · refine .later camelize hstart ?_ ?_ hlast
      · simp [Gen.pointer, hstart, hnext, Field.adding, Field.IsNext]
      · simp [Gen.pointer, hstart, hnext]
    · refine .later camelize hstart ?_ ?_ hlast
      · simp [Gen.pointer, hstart, hnext, Field.adding, Field.IsNext, Field.adds, Field.value,
          Field.name]
      · simp [Gen.pointer, hstart, hnext]

theorem Gen.bitset_spec (g : Gen) (value : Text) :
    FieldDone camelize g (g.bitset value) (.bitset value) := by
  unfold Gen.bitset
  by_cases hstart : g.last = some .start
  · simp only [if_pos hstart]
    refine .first camelize hstart ?_ rfl (by simp [Field.IsNext])
    rw [Field.opener_opens (f := .bitset value) trivial]
    simp [Field.adds, Field.value, Field.name]
  · simp only [if_neg hstart]
    exact .later camelize hstart
      (by simp [Field.adding, Field.IsNext, Field.adds, Field.value, Field.name]) rfl
      (by simp [Field.IsNext])

/-- Each field does what it should.  There is a case for each of the patterns. -/
theorem Gen.field_spec (g : Gen) (f : Field) : FieldDone camelize g (g.field camelize f) f := by
  cases f with
  | macAddr type =>
    exact .added camelize (by simp [Field.IsNext]) rfl
      (by simp [Gen.field, macAddr, Field.adds, Field.value, Field.name]) rfl rfl
  | macAddrMax type =>
    exact .added camelize (by simp [Field.IsNext]) rfl
      (by simp [Gen.field, macAddrMax, Field.adds, Field.value, Field.name]) rfl rfl
  | keyMax type =>
    exact .added camelize (by simp [Field.IsNext]) rfl
      (by simp [Gen.field, keyMax, Field.adds, Field.value, Field.name]) rfl rfl
  | macAddrEth type => exact g.macAddrEth_spec camelize type
  | array type value len => exact g.array_spec camelize type value len
  | scalar key value => exact g.scalar_spec camelize key value
  | pointer key value => exact g.pointer_spec camelize key value
  | bitset value => exact g.bitset_spec camelize value

/-- The fields after the first; `prev` is the one before them. -/
theorem Gen.fields_spec : ∀ (fs : List Field) (g : Gen) (prev : Field), g.last ≠ some .start →
    (g.last = some .next ↔ prev.IsNext) →
      let g' := (fs.map .field).foldl (Gen.on camelize) g
      g'.stmts = g.stmts ++ fs.flatMap (Field.adding camelize g.type) ∧ g'.type = g.type ∧
        (g'.last = some .next ↔ (fs.getLastD prev).IsNext) := by
  intro fs
  induction fs with
  | nil =>
    intro g prev _ hlast
    exact ⟨by simp, rfl, hlast⟩
  | cons f fs ih =>
    intro g prev hstart hlast
    have hf := g.field_spec camelize f
    obtain ⟨hstmts, htype, hlast'⟩ := ih (g.field camelize f) f hf.last.1 hf.last.2
    have hfst := hf.stmts
    rw [if_neg hstart] at hfst
    simp only [List.map_cons, List.foldl_cons, List.flatMap_cons, List.getLastD_cons]
    refine ⟨?_, htype.trans hf.type, hlast'⟩
    rw [← List.append_assoc, ← hfst, ← hf.type]
    exact hstmts

/-! ## 6. Files of structs

A struct is its name and its fields, and its lines say so: a typedef, the fields, and an end.  What
is written for it depends on nothing that was written before. -/

/-- A struct: its name and its fields, of which there is one at least. -/
structure StructDef where
  name : Text
  first : Field
  rest : List Field
deriving DecidableEq

/-- What is written at the end of a struct. -/
def ending (next : Bool) : List Stmt :=
  if next then [.ret .array, .close] else [.close, .ret .obj, .close]

namespace StructDef

def fields (d : StructDef) : List Field := d.first :: d.rest

/-- What its lines say. -/
def found (d : StructDef) : List Found :=
  .typedef d.name :: (d.fields.map .field ++ [.finish])

def lastField (d : StructDef) : Field := d.rest.getLastD d.first

/-- The body of its builder. -/
def body (d : StructDef) : List Stmt :=
  d.first.opening camelize d.name ++ d.rest.flatMap (Field.adding camelize d.name) ++
    ending d.lastField.IsNext

/-- Its builder. -/
def stmts (d : StructDef) : List Stmt :=
  .head (builderName camelize d.name) d.name :: d.body camelize

end StructDef

/-- A file is made of structs: this is what its lines say. -/
def Reads (data : Text) (defs : List StructDef) : Prop :=
  (splitLines data).flatMap found = defs.flatMap StructDef.found

instance (data : Text) (defs : List StructDef) : Decidable (Reads data defs) := by
  unfold Reads
  infer_instance

theorem Gen.finish_spec (g : Gen) :
    g.finish.stmts = g.stmts ++ ending (g.last = some .next) := by
  unfold Gen.finish ending
  by_cases hnext : g.last = some .next <;> simp [hnext]

/-- The lines of a struct write its builder, whatever the context is. -/
theorem Gen.struct_spec (g : Gen) (d : StructDef) :
    (d.found.foldl (Gen.on camelize) g).stmts = g.stmts ++ d.stmts camelize := by
  have hf := (g.typedef camelize d.name).field_spec camelize d.first
  have htype : ((g.typedef camelize d.name).field camelize d.first).type = d.name := hf.type
  have hhead : (g.typedef camelize d.name).stmts
      = g.stmts ++ [.head (builderName camelize d.name) d.name] := by simp [Gen.typedef]
  have hfst := hf.stmts
  rw [if_pos (show (g.typedef camelize d.name).last = some .start from rfl), hhead] at hfst
  obtain ⟨hstmts, -, hlast⟩ := Gen.fields_spec camelize d.rest _ d.first hf.last.1 hf.last.2
  have hfinish := (Gen.finish_spec ((d.rest.map .field).foldl (Gen.on camelize)
    ((g.typedef camelize d.name).field camelize d.first)))
  unfold StructDef.found StructDef.fields
  rw [List.foldl_cons, List.map_cons, List.cons_append, List.foldl_cons, List.foldl_append]
  simp only [List.foldl_cons, List.foldl_nil]
  refine hfinish.trans ?_
  rw [hstmts, hfst, htype]
  simp only [hlast]
  unfold StructDef.stmts StructDef.body StructDef.lastField
  simp only [List.append_assoc, List.cons_append, List.nil_append]
  rfl

/-- A file of structs makes one builder for each.  The induction is on the structs, over the state
in which each leaves the context. -/
theorem generate_stmts {data : Text} {defs : List StructDef} (h : Reads data defs)
    (hne : defs ≠ []) : ∃ g, generate camelize data = some g ∧
      g.stmts = defs.flatMap (StructDef.stmts camelize) := by
  have hfold : ∀ (ds : List StructDef) (g : Gen),
      ((ds.flatMap StructDef.found).foldl (Gen.on camelize) g).stmts
        = g.stmts ++ ds.flatMap (StructDef.stmts camelize) := by
    intro ds
    induction ds with
    | nil =>
      intro g
      simp
    | cons d ds ih =>
      intro g
      rw [List.flatMap_cons, List.foldl_append, ih, Gen.struct_spec, List.flatMap_cons,
        List.append_assoc]
  refine ⟨(splitLines data).foldl (parseLine camelize) .init, ?_, ?_⟩
  · unfold generate
    cases hlines : splitLines data with
    | nil =>
      obtain ⟨d, ds, rfl⟩ := List.exists_cons_of_ne_nil hne
      unfold Reads at h
      rw [hlines] at h
      cases h
    | cons line lines => rfl
  · rw [foldl_parseLine, h, hfold]
    rfl

/-! ## 7. Functions

The output is one list of statements.  Heads occur nowhere but at the start of a function, so it
can be cut at the heads again. -/

/-- The statements before the first function, and the functions. -/
def cutFunctions : List Stmt → List Stmt × List (List Stmt)
  | [] => ([], [])
  | .head function type :: stmts =>
    ([], (.head function type :: (cutFunctions stmts).1) :: (cutFunctions stmts).2)
  | s :: stmts => (s :: (cutFunctions stmts).1, (cutFunctions stmts).2)

/-- The functions in what is written, each from its head to the next. -/
def functionsOf (stmts : List Stmt) : List (List Stmt) := (cutFunctions stmts).2

/-- Not the head of a function. -/
def Stmt.Inner (s : Stmt) : Prop := ∀ function type, s ≠ .head function type

theorem cutFunctions_inner : ∀ {stmts : List Stmt}, (∀ s ∈ stmts, s.Inner) → ∀ rest,
    cutFunctions (stmts ++ rest) = (stmts ++ (cutFunctions rest).1, (cutFunctions rest).2) := by
  intro stmts
  induction stmts with
  | nil =>
    intro _ rest
    rfl
  | cons s stmts ih =>
    intro h rest
    have hs := h s List.mem_cons_self
    have hrest := ih (fun x hx => h x (List.mem_cons_of_mem _ hx)) rest
    cases s with
    | head function type => exact absurd rfl (hs function type)
    | _ =>
      rw [List.cons_append, cutFunctions, hrest]
      · rfl
      · simp

theorem Field.adds_inner (type : Text) (f : Field) : ∀ s ∈ f.adds camelize type, s.Inner := by
  intro s hs function type' heq
  obtain ⟨e, -, rfl⟩ := List.mem_map.mp hs
  cases heq

theorem Field.adding_inner (type : Text) (f : Field) : ∀ s ∈ f.adding camelize type, s.Inner := by
  unfold Field.adding
  split
  · simp [Stmt.Inner]
  · exact f.adds_inner camelize type

theorem Field.opener_inner (type : Text) (f : Field) : ∀ s ∈ f.opener type, s.Inner := by
  unfold Field.opener
  split_ifs <;> simp [Stmt.Inner]

theorem StructDef.body_inner (d : StructDef) : ∀ s ∈ d.body camelize, s.Inner := by
  intro s hs
  rcases List.mem_append.mp hs with hs | hs
  · rcases List.mem_append.mp hs with hs | hs
    · rcases List.mem_append.mp hs with hs | hs
      · exact d.first.opener_inner d.name s hs
      · exact d.first.adds_inner camelize d.name s hs
    · obtain ⟨f, -, hs⟩ := List.mem_flatMap.mp hs
      exact f.adding_inner camelize d.name s hs
  · unfold ending at hs
    revert hs
    split <;> simp +contextual [Stmt.Inner] <;> rintro (rfl | rfl | rfl) <;> simp

/-- The functions of a file of structs are the builders. -/
theorem functionsOf_builders (defs : List StructDef) :
    functionsOf (defs.flatMap (StructDef.stmts camelize))
      = defs.map (StructDef.stmts camelize) := by
  have hcut : cutFunctions (defs.flatMap (StructDef.stmts camelize))
      = ([], defs.map (StructDef.stmts camelize)) := by
    induction defs with
    | nil => rfl
    | cons d ds ih =>
      rw [List.flatMap_cons]
      unfold StructDef.stmts
      rw [List.cons_append, cutFunctions, cutFunctions_inner (d.body_inner camelize)]
      unfold StructDef.stmts at ih
      rw [ih]
      simp
  unfold functionsOf
  rw [hcut]

end

end Capwap.Script
