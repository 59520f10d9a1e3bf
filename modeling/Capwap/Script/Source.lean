/-
# What the source says

The builders in `cwJsonApi.c` are written as text, and a compiler reads them as words and marks.
Where the first thing found in `head.h` opens a struct, every name in that text is a word
(`Gen.Lexical`), whatever the lines hold: a name comes from a group of a pattern, or from
`camelize`.

So no name can run into its neighbour or bring a mark of its own, and each statement is read as its
own tokens (`Stmt.tokens_render`).  These end in the statement's brace or semicolon and say which
statement it is (`Stmt.tokens_ended`, `Stmt.tokens_inj`).  Hence the words and marks of the source
are those of its statements one after the other, and two sources have the same ones just when the
builders are the same, statement by statement (`source_iff`).
-/
import Capwap.Script.Output
import Capwap.Lib.Tokens

namespace Capwap.Script

open Pattern Token

/-! ## 1. The tokens of a statement

A token is a word or a mark: a maximal run of letters, digits and underscores, or any other
character that is no space.  For each statement its tokens are given, and two statements with the
same ones are the same. -/

/-- The tokens of a C text. -/
abbrev cTokens (t : Text) : List (Token Char) := tokens isWord isSpace t

def Arg.tokens : Arg → List (Token Char)
  | .member pointer name => [.word pointer, .mark '-', .mark '>', .word name]
  | .text t => [.word t]

/-- The arguments of a call, with the commas between them. -/
def argsTokens : List Arg → List (Token Char)
  | [] => []
  | [a] => a.tokens
  | a :: b :: args => a.tokens ++ .mark ',' :: argsTokens (b :: args)

def Expr.tokens (e : Expr) : List (Token Char) :=
  .word e.method :: .mark '(' :: (argsTokens e.args ++ [.mark ')'])

/-- The character that a statement ends in. -/
def Stmt.ender : Stmt → Char
  | .head _ _ | .loop | .test _ => '\x7b'
  | .close => '\x7d'
  | _ => ';'

/-- The tokens of a statement in front of that. -/
def Stmt.front : Stmt → List (Token Char)
  | .head function type =>
    [.word (txt "struct"), .word (txt "json_object"), .mark '*', .word function, .mark '(',
      .word (txt "struct"), .word type, .mark '*', .word type, .mark ')']
  | .newArray =>
    [.word (txt "struct"), .word (txt "json_object"), .mark '*', .word (txt "array"), .mark '=',
      .word (txt "json_object_new_array"), .mark '(', .mark ')']
  | .cursor type =>
    [.word (txt "struct"), .word type, .mark '*', .word (txt "e"), .mark '=', .word type]
  | .loop => [.word (txt "while"), .mark '(', .word (txt "e"), .mark ')']
  | .newObj =>
    [.word (txt "struct"), .word (txt "json_object"), .mark '*', .word (txt "obj"), .mark '=',
      .word (txt "json_object_new_object"), .mark '(', .mark ')']
  | .test type => [.word (txt "if"), .mark '(', .word type, .mark ')']
  | .add key value =>
    [.word (txt "json_object_object_add"), .mark '(', .word (txt "obj"), .mark ',', .mark '"',
      .word key, .mark '"', .mark ','] ++ value.tokens ++ [.mark ')']
  | .push =>
    [.word (txt "json_object_array_add"), .mark '(', .word (txt "array"), .mark ',',
      .word (txt "obj"), .mark ')']
  | .next => [.word (txt "e"), .mark '=', .word (txt "e"), .mark '-', .mark '>',
      .word (txt "next")]
  | .close => []
  | .ret v => [.word (txt "return"), .word v.render]

def Stmt.tokens (s : Stmt) : List (Token Char) := s.front ++ [.mark s.ender]

/-- The marks that end statements: the semicolon and the two braces. -/
def isEnder : Token Char → Bool
  | .mark c => c == '\x7b' || c == '\x7d' || c == ';'
  | .word _ => false

theorem Arg.tokens_inner (a : Arg) : ∀ x ∈ a.tokens, isEnder x = false := by
  cases a with
  | member pointer name => simp [Arg.tokens, isEnder]
  | text t => simp [Arg.tokens, isEnder]

theorem argsTokens_inner : ∀ (args : List Arg), ∀ x ∈ argsTokens args, isEnder x = false
  | [] => by simp [argsTokens]
  | [a] => a.tokens_inner
  | a :: b :: args => by
    intro x hx
    rcases List.mem_append.mp hx with hx | hx
    · exact a.tokens_inner x hx
    rcases List.mem_cons.mp hx with rfl | hx
    · rfl
    · exact argsTokens_inner (b :: args) x hx

/-- A statement ends where its first brace or semicolon is. -/
theorem Stmt.tokens_ended (s : Stmt) : Ended isEnder s.tokens := by
  refine ⟨s.front, _, rfl, ?_, by cases s <;> rfl⟩
  cases s with
  | add key value =>
    intro x hx
    simp only [Stmt.front, Expr.tokens, List.mem_append, List.mem_cons, List.not_mem_nil,
      or_false] at hx
    rcases hx with (hx | rfl | rfl | hx | rfl) | rfl
    · rcases hx with rfl | rfl | rfl | rfl | rfl | rfl | rfl | rfl <;> rfl
    · rfl
    · rfl
    · exact argsTokens_inner _ x hx
    · rfl
    · rfl
  | _ => simp [Stmt.front, isEnder]

theorem argsTokens_inj : ∀ {args args' : List Arg}, argsTokens args = argsTokens args' →
    args = args'
  | [], [], _ => rfl
  | [], [a], h => by cases a <;> simp [argsTokens, Arg.tokens] at h
  | [], a :: b :: args, h => by cases a <;> simp [argsTokens, Arg.tokens] at h
  | [a], [], h => by cases a <;> simp [argsTokens, Arg.tokens] at h
  | a :: b :: args, [], h => by cases a <;> simp [argsTokens, Arg.tokens] at h
  | [a], [a'], h => by cases a <;> cases a' <;> simp_all [argsTokens, Arg.tokens]
  | [a], a' :: b' :: args', h => by
    cases a <;> cases a' <;> simp [argsTokens, Arg.tokens] at h
  | a :: b :: args, [a'], h => by
    cases a <;> cases a' <;> simp [argsTokens, Arg.tokens] at h
  | a :: b :: args, a' :: b' :: args', h => by
    have hboth : a = a' ∧ argsTokens (b :: args) = argsTokens (b' :: args') := by
      cases a <;> cases a' <;> simp_all [argsTokens, Arg.tokens]
    rw [hboth.1, argsTokens_inj hboth.2]

theorem Var.render_inj {v v' : Var} (h : v.render = v'.render) : v = v' := by
  cases v <;> cases v' <;> first | rfl | exact absurd h (by decide)

/-- The tokens of a statement say which it is.  There is a case for each pair of forms; most differ
in their first token. -/
theorem Stmt.tokens_inj {s s' : Stmt} (h : s.tokens = s'.tokens) : s = s' := by
  obtain ⟨hfront, -⟩ := List.append_inj' h rfl
  -- two statements of different kinds differ in a token that is always there
  cases s <;> cases s' <;> simp +decide [Stmt.front, Expr.tokens] at hfront ⊢
  case head.head => exact hfront
  case cursor.cursor => exact hfront
  case test.test => exact hfront
  case add.add e _ e' =>
    obtain ⟨hkey, hmethod, hargs⟩ := hfront
    refine ⟨hkey, ?_⟩
    obtain ⟨method, args⟩ := e
    obtain ⟨method', args'⟩ := e'
    simp only at hmethod hargs
    rw [hmethod, argsTokens_inj hargs]
  case ret.ret => exact Var.render_inj hfront

/-! ## 2. Reading what is written

The text of a statement consists of fixed pieces and of names.  A fixed piece starts and ends with
a mark or a space, so that a name in between is a token of its own, if it is a word. -/

def Arg.Words : Arg → Prop
  | .member pointer name => IsWord pointer ∧ IsWord name
  | .text t => IsWord t

def Expr.Words (e : Expr) : Prop := IsWord e.method ∧ ∀ a ∈ e.args, a.Words

/-- Its names are words, those of its arguments included. -/
def Stmt.Words : Stmt → Prop
  | .head function type => IsWord function ∧ IsWord type
  | .cursor type | .test type => IsWord type
  | .add key value => IsWord key ∧ value.Words
  | _ => True

theorem cTokens_lit {s : Text} (hs : Closed isWord s) (t : Text) :
    cTokens (s ++ t) = cTokens s ++ cTokens t := tokens_append_last hs

theorem cTokens_fresh {t : Text} (ht : Fresh isWord t) (s : Text) :
    cTokens (s ++ t) = cTokens s ++ cTokens t := tokens_append ht

theorem cTokens_word {w t : Text} (hw : IsWord w) (ht : Fresh isWord t) :
    cTokens (w ++ t) = .word w :: cTokens t := by
  have hword : cTokens w = [.word w] := tokens_word hw.1 hw.2
  rw [cTokens_fresh ht, hword]
  rfl

/-- A text that may stand between two words: its first character ends the word in front, and its
last one is no part of the word behind. -/
def Between (s : Text) : Prop := s ≠ [] ∧ Fresh isWord s ∧ Closed isWord s

instance (s : Text) : Decidable (Between s) :=
  inferInstanceAs (Decidable (s ≠ [] ∧ Fresh isWord s ∧ Closed isWord s))

theorem cTokens_between {w s : Text} (hw : IsWord w) (hs : Between s) (t : Text) :
    cTokens (w ++ (s ++ t)) = .word w :: (cTokens s ++ cTokens t) := by
  rw [cTokens_word hw (hs.2.1.append hs.1 _), cTokens_lit hs.2.2]

theorem Arg.tokens_render {a : Arg} (ha : a.Words) {t : Text} (ht : Fresh isWord t) :
    cTokens (a.render ++ t) = a.tokens ++ cTokens t := by
  cases a with
  | text w => exact cTokens_word ha ht
  | member pointer name =>
    simp only [Arg.render, List.append_assoc]
    rw [cTokens_between ha.1 (by decide), cTokens_word ha.2 ht]
    rfl

theorem argsTokens_render : ∀ {args : List Arg}, (∀ a ∈ args, a.Words) → ∀ {t : Text},
    Fresh isWord t → cTokens (List.intercalate (txt ", ") (args.map Arg.render) ++ t)
      = argsTokens args ++ cTokens t
  | [], _, _, _ => rfl
  | [a], h, t, ht => by
    have hone : List.intercalate (txt ", ") ([a].map Arg.render) = a.render := by
      simp [List.intercalate]
    rw [hone]
    exact Arg.tokens_render (h a List.mem_cons_self) ht
  | a :: b :: args, h, t, ht => by
    have hmore : List.intercalate (txt ", ") ((a :: b :: args).map Arg.render)
        = a.render ++ (txt ", " ++ List.intercalate (txt ", ") ((b :: args).map Arg.render)) := by
      simp [List.intercalate]
    rw [hmore, List.append_assoc, List.append_assoc,
      Arg.tokens_render (h a List.mem_cons_self) (Fresh.append (by decide) (by decide) _),
      cTokens_lit (by decide), argsTokens_render (fun x hx => h x (List.mem_cons_of_mem _ hx)) ht]
    simp only [argsTokens, List.append_assoc]
    rfl

theorem Expr.tokens_render {e : Expr} (he : e.Words) (t : Text) :
    cTokens (e.render ++ t) = e.tokens ++ cTokens t := by
  simp only [Expr.render, List.append_assoc]
  rw [cTokens_between he.1 (by decide),
    argsTokens_render he.2 (Fresh.append (by decide) (by decide) _), cTokens_lit (by decide)]
  simp only [Expr.tokens, List.cons_append, List.append_assoc]
  rfl

/-- The text of a statement is read as its tokens, when its names are words. -/
theorem Stmt.tokens_render {s : Stmt} (hs : s.Words) : cTokens s.render = s.tokens := by
  cases s with
  | newArray | loop | newObj | push | next | close => decide +kernel
  | ret v => cases v <;> decide +kernel
  | head function type =>
    simp only [Stmt.render, List.append_assoc]
    rw [cTokens_lit (by decide), cTokens_between hs.1 (by decide),
      cTokens_between hs.2 (by decide), cTokens_word hs.2 (by decide)]
    rfl
  | cursor type =>
    simp only [Stmt.render, List.append_assoc]
    rw [cTokens_lit (by decide), cTokens_between hs (by decide), cTokens_word hs (by decide)]
    rfl
  | test type =>
    simp only [Stmt.render, List.append_assoc]
    rw [cTokens_lit (by decide), cTokens_word hs (by decide)]
    rfl
  | add key value =>
    simp only [Stmt.render, List.append_assoc]
    rw [cTokens_lit (by decide), cTokens_between hs.1 (by decide), Expr.tokens_render hs.2]
    simp only [Stmt.tokens, Stmt.front, List.append_assoc, List.cons_append, List.nil_append]
    rfl

/-! ## 3. Names are words

Names come from three places: groups of `\w+` in a pattern, fixed names, and `camelize`.  `Lexical`
says of the whole output that its names are words, and each of the functions that write something
keeps it. -/

def Found.Words : Found → Prop
  | .typedef name => IsWord name
  | .field f => f.Words
  | .finish => True

/-- The names found in a line are words: each comes from a group of word characters, or of
digits. -/
theorem found_words {line : Text} {f : Found} (hf : f ∈ found line) : f.Words := by
  unfold found at hf
  split at hf
  · cases hf
  simp only [List.mem_append] at hf
  rcases hf with ((((((((hf | hf) | hf) | hf) | hf) | hf) | hf) | hf) | hf) | hf <;>
    obtain ⟨groups, h, rfl⟩ := List.mem_map.mp hf
  · exact find_group 0 h rfl
  · exact find_group 0 h rfl
  · exact find_group 0 h rfl
  · exact find_group 0 h rfl
  · exact find_group 0 h rfl
  · exact ⟨find_group 0 h rfl, find_group 1 h rfl, find_group 2 h rfl⟩
  · exact ⟨find_group 0 h rfl, find_group 1 h rfl⟩
  · exact ⟨find_group 0 h rfl, find_group 1 h rfl⟩
  · exact find_group 0 h rfl
  · trivial

theorem IsWord.append {s t : Text} (hs : IsWord s) (ht : ∀ c ∈ t, isWord c = true) :
    IsWord (s ++ t) := by
  refine ⟨by simp [hs.1], fun c hc => ?_⟩
  rcases List.mem_append.mp hc with hc | hc
  · exact hs.2 c hc
  · exact ht c hc

/-- `camelize` makes words of words, with a dash in front: this is what is known of the package
`string`. -/
def KeepsWords (camelize : Text → Text) : Prop :=
  ∀ name, IsWord name → ∀ c ∈ camelize ('-' :: name), isWord c = true

/-- `S(name).camelize().s` for a name without spaces: the character after a dash or an underscore
becomes a capital, and the dashes and underscores go. -/
def camel : Bool → Text → Text
  | _, [] => []
  | upper, c :: name =>
    if c == '-' || c == '_' then camel true name
    else (if upper then c.toUpper else c) :: camel false name

example : camel false (txt "-vsp_dot11_ap_list") = txt "VspDot11ApList" := by decide

theorem isWord_toUpper {c : Char} (h : isWord c = true) : isWord c.toUpper = true := by
  have hbound : c.toNat < 123 := by
    have hrange := isWord_range h
    omega
  have hall : ∀ n < 123, isWord (Char.ofNat n) = true → isWord (Char.ofNat n).toUpper = true := by
    decide +kernel
  have hc := hall c.toNat hbound
  rw [Char.ofNat_toNat] at hc
  exact hc h

theorem camel_isWord {name : Text} (h : ∀ c ∈ name, c = '-' ∨ isWord c = true) (upper : Bool) :
    ∀ c ∈ camel upper name, isWord c = true := by
  induction name generalizing upper with
  | nil => exact List.forall_mem_nil _
  | cons c name ih =>
    have hrest := ih fun x hx => h x (List.mem_cons_of_mem _ hx)
    unfold camel
    split_ifs with hsep hupper
    · exact hrest true
    all_goals
      have hc : isWord c = true := by
        rcases h c List.mem_cons_self with rfl | hc
        · exact absurd rfl hsep
        · exact hc
    · exact List.forall_mem_cons.mpr ⟨isWord_toUpper hc, hrest false⟩
    · exact List.forall_mem_cons.mpr ⟨hc, hrest false⟩

theorem camel_keepsWords : KeepsWords (camel false) := fun _ hname =>
  camel_isWord (List.forall_mem_cons.mpr ⟨Or.inl rfl, fun c hc => Or.inr (hname.2 c hc)⟩) false

section
variable {camelize : Text → Text} (hcamelize : KeepsWords camelize)
include hcamelize

theorem builderName_isWord {type : Text} (h : IsWord type) :
    IsWord (builderName camelize type) :=
  IsWord.append (by decide) (hcamelize type h)

theorem getNewMethod_isWord {type : Text} (h : IsWord type) :
    IsWord (getNewMethod camelize type) := by
  unfold getNewMethod
  split
  · decide
  split
  · next parts hparts =>
    exact builderName_isWord hcamelize (find_group 0 (Option.mem_toList.mpr hparts) rfl)
  · exact IsWord.append (by decide) h.2

end

/-- Text that is not read. -/
def Blank (t : Text) : Prop := ∀ c ∈ t, isWord c = false ∧ isSpace c = true

instance (t : Text) : Decidable (Blank t) :=
  List.decidableBAll (fun c => isWord c = false ∧ isSpace c = true) t

/-- The struct's name is a word, and what is written consists of words behind blank indents. -/
structure Gen.Lexical (g : Gen) : Prop where
  type : IsWord g.type
  indent : Blank g.indent
  source : ∀ line ∈ g.source, Blank line.1 ∧ line.2.Words

namespace Gen.Lexical

variable {g : Gen}

theorem toSource (h : g.Lexical) {indent : Text} (hi : Blank indent) {s : Stmt} (hs : s.Words) :
    (g.toSource indent s).Lexical where
  type := h.type
  indent := h.indent
  source := by
    intro line hline
    rcases List.mem_append.mp hline with hline | hline
    · exact h.source line hline
    · obtain rfl := List.mem_singleton.mp hline
      exact ⟨hi, hs⟩

theorem line (h : g.Lexical) {s : Stmt} (hs : s.Words) : (g.line s).Lexical :=
  h.toSource h.indent hs

theorem last (h : g.Lexical) (l : Option Last) : Gen.Lexical { g with last := l } :=
  ⟨h.type, h.indent, h.source⟩

theorem indented (h : g.Lexical) {indent : Text} (hi : Blank indent) :
    Gen.Lexical { g with indent := indent } :=
  ⟨h.type, hi, h.source⟩

theorem openBlock (h : g.Lexical) : g.openBlock.Lexical :=
  ((h.line (s := .newObj) trivial).line (s := .test g.type) h.type).indented (by decide)

theorem member (h : g.Lexical) {name : Text} (hname : IsWord name) : (g.member name).Words :=
  ⟨h.type, hname⟩

/-- A value is added under a key. -/
theorem add (h : g.Lexical) {key method : Text} {args : List Arg} (hkey : IsWord key)
    (hmethod : IsWord method) (hargs : ∀ a ∈ args, a.Words) :
    (g.line (.add key ⟨method, args⟩)).Lexical :=
  h.line ⟨hkey, hmethod, hargs⟩

/-- A member and its length. -/
theorem addArray (h : g.Lexical) {key name : Text} {size : Arg} (hkey : IsWord key)
    (hname : IsWord name) (hsize : size.Words) :
    (g.line (.add key (buildArray (g.member name) size))).Lexical :=
  h.add hkey (by decide)
    (List.forall_mem_cons.mpr ⟨h.member hname, List.forall_mem_singleton.mpr hsize⟩)

/-- The start of a list, up to its loop. -/
theorem openLoop (h : g.Lexical) :
    (((g.line .newArray).line (.cursor g.type)).line .loop).Lexical :=
  ((h.line (s := .newArray) trivial).line (s := .cursor g.type) h.type).line (s := .loop) trivial

theorem macAddrEth (h : g.Lexical) : g.macAddrEth.Lexical := by
  have hmac : IsWord (txt "macAddr") := by decide
  have heth : (Arg.text (txt "ETH_ALEN")).Words := show IsWord _ by decide
  unfold Gen.macAddrEth
  simp only
  split
  · exact (h.openBlock.addArray hmac hmac heth).last _
  · exact (h.addArray hmac hmac heth).last _

theorem array (h : g.Lexical) {value len : Text} (hvalue : IsWord value) (hlen : IsNumber len) :
    (g.array value len).Lexical := by
  have hsize : (Arg.text len).Words := hlen.isWord
  unfold Gen.array
  simp only
  split_ifs
  · exact (h.addArray hvalue hvalue (h.member (by decide))).last _
  · exact (h.addArray hvalue hvalue (h.member (by decide))).last _
  · exact (h.addArray hvalue hvalue (h.member (by decide))).last _
  · exact h.last _
  · exact (h.add hvalue (by decide)
      (List.forall_mem_singleton.mpr (h.member hvalue))).last _
  · exact (h.addArray hvalue hvalue (h.member (by decide))).last _
  · exact (h.addArray hvalue hvalue hsize).last _

theorem bitset (h : g.Lexical) {value : Text} (hvalue : IsWord value) :
    (g.bitset value).Lexical := by
  unfold Gen.bitset
  simp only
  split
  · exact (h.openBlock.add hvalue (by decide)
      (List.forall_mem_singleton.mpr (h.openBlock.member hvalue))).last _
  · exact (h.add hvalue (by decide)
      (List.forall_mem_singleton.mpr (h.member hvalue))).last _

theorem finish (h : g.Lexical) : g.finish.Lexical := by
  unfold Gen.finish
  simp only
  split
  · exact (((h.line (s := .ret .array) trivial).indented (by decide)).toSource (by decide)
      (s := .close) trivial).last _
  · exact (((((@indented _ h (txt "    ") (by decide)).line (s := .close) trivial).line
      (s := .ret .obj) trivial).indented (by decide)).toSource (by decide) (s := .close)
        trivial).last _

section
variable {camelize : Text → Text} (hcamelize : KeepsWords camelize)
include hcamelize

/-- A typedef sets the name and the indent, whatever they were. -/
theorem typedef (h : ∀ line ∈ g.source, Blank line.1 ∧ line.2.Words) {name : Text}
    (hname : IsWord name) : (g.typedef camelize name).Lexical where
  type := hname
  indent := by
    show Blank (txt "    ")
    decide
  source := by
    intro line hline
    rcases List.mem_append.mp hline with hline | hline
    · exact h line hline
    · obtain rfl := List.mem_singleton.mp hline
      exact ⟨List.forall_mem_nil _, builderName_isWord hcamelize hname, hname⟩

theorem addMember (h : g.Lexical) {key value : Text} (hkey : IsWord key) (hvalue : IsWord value) :
    (g.addMember camelize key value).Lexical :=
  h.add hvalue (getNewMethod_isWord hcamelize hkey)
    (List.forall_mem_singleton.mpr (h.member hvalue))

theorem scalar (h : g.Lexical) {key value : Text} (hkey : IsWord key) (hvalue : IsWord value) :
    (g.scalar camelize key value).Lexical := by
  unfold Gen.scalar
  simp only
  split_ifs
  · exact (addMember hcamelize (((h.openLoop.indented (by decide)).line
      (s := .newObj) trivial)) hkey hvalue).last _
  · exact (addMember hcamelize h.openBlock hkey hvalue).last _
  · exact (addMember hcamelize h hkey hvalue).last _

theorem pointer (h : g.Lexical) {key value : Text} (hkey : IsWord key) (hvalue : IsWord value) :
    (g.pointer camelize key value).Lexical := by
  unfold Gen.pointer
  refine Gen.Lexical.last ?_ _
  simp only
  split_ifs
  · exact addMember hcamelize (h.openLoop.indented (by decide)) hkey hvalue
  · exact addMember hcamelize h.openBlock hkey hvalue
  · exact (((h.line (s := .push) trivial).line (s := .next) trivial).indented (by decide)).line
      (s := .close) trivial
  · exact addMember hcamelize h hkey hvalue

/-- Whatever is found in a line, the words stay words.  There is a case for each kind of find. -/
theorem on (h : g.Lexical) {f : Found} (hf : f.Words) : (g.on camelize f).Lexical := by
  have hmac : IsWord (txt "macAddr") := by decide
  have hlen : (g.member (txt "macLen")).Words := h.member (by decide)
  cases f with
  | typedef name => exact typedef hcamelize h.source hf
  | finish => exact h.finish
  | field f =>
    cases f with
    | macAddr type => exact (h.addArray hmac hmac hlen).last _
    | macAddrMax type => exact (h.addArray hmac hmac hlen).last _
    | macAddrEth type => exact h.macAddrEth
    | keyMax type =>
      have hkey : IsWord (txt "key") := by decide
      exact (h.addArray hkey hkey (h.member (show IsWord (txt "kLen") by decide))).last _
    | array type value len => exact h.array hf.2.1 hf.2.2
    | scalar key value => exact h.scalar hcamelize hf.1 hf.2
    | pointer key value => exact h.pointer hcamelize hf.1 hf.2
    | bitset value => exact h.bitset hf

/-- ...and so they do for all the lines. -/
theorem founds : ∀ {fs : List Found} {g : Gen}, g.Lexical → (∀ f ∈ fs, f.Words) →
    (fs.foldl (Gen.on camelize) g).Lexical
  | [], _, h, _ => h
  | f :: fs, _, h, hfs => by
    rw [List.foldl_cons]
    exact founds (h.on hcamelize (hfs f List.mem_cons_self)) fun x hx =>
      hfs x (List.mem_cons_of_mem _ hx)

end

end Gen.Lexical

/-! ## 4. The source says what it defines

The start of the source, `buildArray` and the functions for the names are the same in both files,
so what can differ is the builders.  Their tokens are those of their statements, in a row; each
ends in its brace or semicolon, so the row can be cut again. -/

section
variable {camelize : Text → Text}

/-- What the lines of a file write is lexical, once the first thing found opens a struct. -/
theorem generate_lexical (hcamelize : KeepsWords camelize) {data : Text} (hs : StartsStruct data)
    {g : Gen} (hg : generate camelize data = some g) : g.Lexical := by
  obtain ⟨name, rest, hfound⟩ := hs
  have hwords : ∀ f ∈ (splitLines data).flatMap found, f.Words := by
    intro f hf
    obtain ⟨line, -, hf⟩ := List.mem_flatMap.mp hf
    exact found_words hf
  -- the typedef comes first, so nothing is written under the name and the indent `undefined`
  have hrun : (((splitLines data).flatMap found).foldl (Gen.on camelize) .init).Lexical := by
    rw [hfound] at hwords ⊢
    rw [List.foldl_cons]
    refine Gen.Lexical.founds hcamelize ?_ fun f hf => hwords f (List.mem_cons_of_mem _ hf)
    exact Gen.Lexical.typedef hcamelize (fun line hline => absurd hline List.not_mem_nil)
      (hwords _ List.mem_cons_self)
  rw [← foldl_parseLine] at hrun
  unfold generate at hg
  split at hg
  · cases hg
  · obtain rfl := Option.some.inj hg
    exact hrun

/-- The builders are read as the tokens of their statements. -/
theorem Gen.Lexical.sourceText {g : Gen} (h : g.Lexical) (t : Text) :
    cTokens (g.sourceText ++ t) = (g.stmts.map Stmt.tokens).flatten ++ cTokens t := by
  have hlines := h.source
  unfold Gen.sourceText linesText Gen.stmts
  generalize g.source = lines at hlines
  induction lines with
  | nil => rfl
  | cons line lines ih =>
    obtain ⟨hblank, hwords⟩ := hlines line List.mem_cons_self
    have hrest := ih fun x hx => hlines x (List.mem_cons_of_mem _ hx)
    have hclosed : Closed isWord line.1 := fun c hc => (hblank c (List.mem_of_getLast? hc)).1
    have hindent : cTokens line.1 = [] := tokens_blanks hblank
    rw [List.flatMap_cons, List.append_assoc, List.append_assoc, List.append_assoc,
      cTokens_lit hclosed, hindent, List.nil_append,
      cTokens_fresh (Fresh.append (by decide) (by decide) _), Stmt.tokens_render hwords,
      cTokens_lit (by decide), hrest]
    simp only [List.map_cons, List.flatten_cons, List.append_assoc]
    rfl

/-- The tokens of the source: those of the start, of the statements one after the other, and of the
functions for the names. -/
theorem writeFiles_tokens (hcamelize : KeepsWords camelize) {top : List Text} {data : Text}
    {f : Files} (hs : StartsStruct data) (h : writeFiles camelize top data = some f) :
    ∃ g, generate camelize data = some g ∧ cTokens f.source = cTokens startFiles.source ++
      ((g.stmts.map Stmt.tokens).flatten ++
        cTokens (top.flatMap (wrapperText camelize))) := by
  unfold writeFiles at h
  obtain ⟨g, hg, hf⟩ := Option.bind_eq_some_iff.mp h
  obtain rfl := Option.some.inj hf
  refine ⟨g, hg, ?_⟩
  have hclosed : Closed isWord startFiles.source := by decide +kernel
  show cTokens (addTopInterface camelize top _).source = _
  unfold addTopInterface
  rw [addInterfaces_spec]
  simp only [Files.toHeader, Files.toSource, List.append_assoc]
  rw [cTokens_lit hclosed, (generate_lexical hcamelize hs hg).sourceText]

/-- **The source says what it defines.**  Of two files that start with a struct, the sources
written have the same words and marks just when they define the same functions by the same
statements. -/
theorem source_iff (hcamelize : KeepsWords camelize) {top : List Text} {data data' : Text}
    {f f' : Files} (hs : StartsStruct data) (hs' : StartsStruct data')
    (h : writeFiles camelize top data = some f) (h' : writeFiles camelize top data' = some f') :
    ∃ g g', generate camelize data = some g ∧ generate camelize data' = some g' ∧
      (cTokens f.source = cTokens f'.source ↔ g.stmts = g'.stmts) := by
  obtain ⟨g, hg, htokens⟩ := writeFiles_tokens hcamelize hs h
  obtain ⟨g', hg', htokens'⟩ := writeFiles_tokens hcamelize hs' h'
  refine ⟨g, g', hg, hg', ?_⟩
  rw [htokens, htokens', List.append_cancel_left_eq, List.append_cancel_right_eq]
  constructor
  · intro hflat
    -- the statements' tokens can be cut apart in one way only, and say which statements they are
    have hended : ∀ stmts : List Stmt, ∀ w ∈ stmts.map Stmt.tokens, w ∈ {w | Ended isEnder w} := by
      intro stmts w hw
      obtain ⟨s, -, rfl⟩ := List.mem_map.mp hw
      exact s.tokens_ended
    have hmap := uniquelyDecodable_of_ended (fun w hw => hw) _ _ (hended g.stmts)
      (hended g'.stmts) hflat
    exact List.map_injective_iff.mpr (fun _ _ => Stmt.tokens_inj) hmap
  · intro heq
    rw [heq]

end

/-- The source with the radio is another than the one without it. -/
theorem source_iff_radio : ∃ f f', writeFiles (camel false) topInterface rateText = some f ∧
    writeFiles (camel false) topInterface radioText = some f' ∧
    cTokens f.source ≠ cTokens f'.source := by
  have hwritten : ∀ {data : Text} {g : Gen}, generate (camel false) data = some g →
      ∃ f, writeFiles (camel false) topInterface data = some f := by
    intro data g hg
    unfold writeFiles
    rw [hg]
    exact ⟨_, rfl⟩
  have hreads : Reads rateText [rateDef.struct] := by decide +kernel
  obtain ⟨g, hg, hstmts⟩ := generate_stmts (camel false) hreads (by simp)
  obtain ⟨g', hg', hstmts'⟩ := generate_stmts (camel false) radio_reads (by simp)
  obtain ⟨f, hf⟩ := hwritten hg
  obtain ⟨f', hf'⟩ := hwritten hg'
  refine ⟨f, f', hf, hf', ?_⟩
  obtain ⟨g₁, g₂, hg₁, hg₂, hiff⟩ := source_iff camel_keepsWords (hreads.startsStruct (by simp))
    (radio_reads.startsStruct (by simp)) hf hf'
  obtain rfl := Option.some.inj (hg.symm.trans hg₁)
  obtain rfl := Option.some.inj (hg'.symm.trans hg₂)
  rw [Ne, hiff, hstmts, hstmts']
  decide +kernel

end Capwap.Script
