/-
# `cw_conf_parse` and `cw_conf_handler`

The parser of `cw_conf_file.c`.  `cw_conf_parse` reads directives in a loop and dispatches each
to the handler of the first command that matches; a handler may call `cw_conf_parse` again, with
a file name or, to read its own block, with `NULL`.

A handler is a program over the world (`Act`): it returns, or it asks for a parse and goes on
with the result.  What it may change in `cf` is the `View`.  Functions that run handlers take
the parser as an argument, and `confParse` ties the knot with a bound on how deep calls may be
nested.

The kind of text is not a parameter of `cw_conf_parse`: a call with a name reads a file, and a
call without one reads a block or a parameter, depending on the descriptor of the current file.
-/
import Capwap.Conf.Token

namespace Capwap

/-! ## 1. Modules, commands and handlers

A command has a name, a mask of what it admits and where, and a function that is called for a
directive of that name.  Such a function is not part of the parser, but it calls the parser: a
block's handler has `cw_conf_parse` read the block.  `Act` gives a handler no other way to do so
than to ask, so a model of a handler cannot look into the file or into `cf->args` behind the
parser's back. -/

/-- The bits of `cmd->type`. -/
def confBlock : Nat := 0x100
def confFlag : Nat := 0x200
def confAny : Nat := 0x400
def conf1More : Nat := 0x800
def conf2More : Nat := 0x1000
def confTake1 : Nat := 0x2
def directConf : Nat := 0x10000
def mainConf : Nat := 0x1000000

/-- `CW_CONF_MAX_ARGS`. -/
def confMaxArgs : Nat := 8

/-- The mask of each number of words, counted from 1: `CW_CONF_NOARGS` to `CW_CONF_TAKE7`. -/
def argumentNumber : List Nat := [0x1, 0x2, 0x4, 0x8, 0x10, 0x20, 0x40, 0x80]

/-- Module types. -/
def coreModule : Nat := 0x45524F43
def confModule : Nat := 0x464E4F43

/-- What handlers read and set in `cf`: `ctx`, `module_type`, `cmd_type`, and the custom `handler`,
a function's address or 0.  A handler that has a block read sets these for it and puts them
back. -/
structure View where
  ctx : Nat
  moduleType : Nat
  cmdType : Nat
  handler : Nat
deriving DecidableEq, Repr

/-- What a handler returns: `CW_CONF_OK`, `CW_CONF_ERROR` or a text. -/
inductive Rv
  | ok
  | error
  | message (text : String)
deriving DecidableEq, Repr

/-- A handler at work: it returns with a view and a world, or calls `cw_conf_parse` and goes on
with what that returns and leaves in `cf`.  The tree may branch on anything the parse returned, so
a handler may parse as often as it likes. -/
inductive Act (σ : Type)
  | ret (rv : Rv) (view : View) (w : σ)
  | parse (filename : Option (List UInt8)) (view : View) (w : σ)
      (k : Rv → View → List Word → σ → Act σ)

/-- `cw_command_t`.  `set` is given the view, the words, the pointer `conf` and the world. -/
structure Command (σ : Type) where
  name : List UInt8
  type : Nat
  conf : Nat
  set : View → List Word → Nat → σ → Act σ

/-- `cw_module_t`, as far as the parser reads it; the commands are those before the null
command. -/
structure Module (σ : Type) where
  type : Nat
  index : Nat
  ctxIndex : Nat
  commands : Option (List (Command σ))

/-- The modules of a cycle, and the code of the custom handlers, by the address that `cf->handler`
holds. -/
structure Table (σ : Type) where
  modules : List (Module σ)
  custom : Nat → View → List Word → σ → Act σ

/-! ## 2. The parser's state and errors

Every way to `CW_CONF_ERROR` has a constructor, with what its log line names.  Which of them it is
makes no difference to the callers, who only see that the parse failed (`Rv.of`). -/

/-- `cf`: `args`, `conf_file`, the view and the world.  `conf_file` is `NULL` before the first file
is opened. -/
structure Cf (σ : Type) where
  args : List Word
  conf : Option ConfFile
  view : View
  world : σ

/-- Why a parse failed. -/
inductive ParseError
  | openFailed
  | noBuffer
  | token (e : TokenError)
  | unexpectedClose
  | unexpectedEof
  | blockInParam
  | unexpectedOpen
  /-- a custom handler returned `CW_CONF_ERROR`, or a text -/
  | customFailed
  | customSaid (text : String)
  | notTerminated (name : Word)
  | noOpening (name : Word)
  | invalidArgs (name : Word)
  | notAllowed (name : Word)
  | unknown (name : Word)
  /-- a directive's handler returned `CW_CONF_ERROR`, or a text -/
  | setFailed
  | setSaid (name : Word) (text : String)
  | closeFailed
  /-- `cf->conf_file` is `NULL`, or `cf->args` has no first element -/
  | noFile
  | noName
  /-- the bound on the depth or on the number of directives was too small -/
  | stuck
deriving DecidableEq, Repr

/-- The format of the line that is logged, if any. -/
def ParseError.format (havePread : Bool) : ParseError → Option String
  | .openFailed => some "open() \"%s\" failed"
  | .token e => e.format havePread
  | .unexpectedClose => some "unexpected \"\x7d\""
  | .unexpectedEof => some "unexpected end of file, expecting \"\x7d\""
  | .blockInParam => some "block directives are not supported in -g option"
  | .unexpectedOpen => some "unexpected \"\x7b\""
  | .customSaid _ => some "%s"
  | .notTerminated _ => some "directive \"%s\" is not terminated by \";\""
  | .noOpening _ => some "directive \"%s\" has no opening \"\x7b\""
  | .invalidArgs _ => some "invalid number of arguments in \"%s\" directive"
  | .notAllowed _ => some "\"%s\" directive is not allowed here"
  | .unknown _ => some "unknown directive \"%s\""
  | .setSaid _ _ => some "\"%s\" directive %s"
  | .closeFailed => some "close() %s failed"
  | .noBuffer | .customFailed | .setFailed | .noFile | .noName | .stuck => none

/-- What a caller sees of a parse: `CW_CONF_OK` or `CW_CONF_ERROR`. -/
def Rv.of (r : Except ParseError Unit) : Rv :=
  match r with
  | .ok _ => .ok
  | .error _ => .error

/-! ## 3. `cw_conf_handler`

The search goes through the modules in order and through each module's commands in order.  A name
that matches in the wrong place is passed over but remembered (`found`), and the first command that
fits decides: when the directive does not satisfy it, no later one is tried. -/

/-- A C string: the bytes before the first NUL. -/
def cStr (bs : List UInt8) : List UInt8 := bs.takeWhile (· ≠ 0)

/-- The two comparisons of a word with a command's name, by length and by `cw_strcmp`.  Neither
would do alone: a word may have a NUL inside. -/
def Command.Named {σ : Type} (cmd : Command σ) (name : Word) : Prop :=
  name.len = cmd.name.length ∧ cStr name.data = cStr cmd.name

instance {σ : Type} (cmd : Command σ) (name : Word) : Decidable (cmd.Named name) :=
  inferInstanceAs (Decidable (_ ∧ _))

/-- The inner loop, over the commands of one module: `found`, and the command taken. -/
def findIn {σ : Type} (view : View) (m : Module σ) (name : Word) :
    Bool → List (Command σ) → Bool × Option (Command σ)
  | found, [] => (found, none)
  | found, cmd :: cmds =>
    if ¬ cmd.Named name then findIn view m name found cmds
    else if m.type ≠ confModule ∧ m.type ≠ view.moduleType then findIn view m name true cmds
    else if cmd.type &&& view.cmdType = 0 then findIn view m name true cmds
    else (true, some cmd)

/-- What the search ends with. -/
inductive Lookup (σ : Type)
  | command (m : Module σ) (cmd : Command σ)
  | notAllowed
  | unknown

/-- The outer loop, over the modules. -/
def findCommand {σ : Type} (view : View) (name : Word) : Bool → List (Module σ) → Lookup σ
  | found, [] => if found then .notAllowed else .unknown
  | found, m :: ms =>
    match m.commands with
    | none => findCommand view name found ms
    | some cmds =>
      match findIn view m name found cmds with
      | (_, some cmd) => .command m cmd
      | (found, none) => findCommand view name found ms

/-- Is the directive's argument count right?  `n` is `cf->args->nelts`, which counts the name too.
The flags for "any number" and "one or more" come before the table of exact numbers. -/
def admitsArgs (type n : Nat) : Bool :=
  if type &&& confAny ≠ 0 then true
  else if type &&& confFlag ≠ 0 then n == 2
  else if type &&& conf1More ≠ 0 then !(n < 2)
  else if type &&& conf2More ≠ 0 then !(n < 3)
  else if n > confMaxArgs then false
  else type &&& argumentNumber.getD (n - 1) 0 ≠ 0

section
variable {σ : Type}

/-- The directive's configuration context, the third argument of `set`. -/
def confPointer (S : Sys σ) (view : View) (m : Module σ) (cmd : Command σ) (w : σ) : Nat :=
  if cmd.type &&& directConf ≠ 0 then S.load (view.ctx + 8 * m.index) w
  else if cmd.type &&& mainConf ≠ 0 then view.ctx + 8 * m.index
  else if view.ctx ≠ 0 then
    let confp := S.load (view.ctx + cmd.conf) w
    if confp ≠ 0 then S.load (confp + 8 * m.ctxIndex) w else 0
  else 0

/-- The parser, as the functions it calls see it. -/
abbrev Parser (σ : Type) : Type :=
  Option (List UInt8) → Cf σ → Except ParseError Unit × Cf σ

/-- A handler runs to its end. -/
def Act.run (parse : Parser σ) : Act σ → Cf σ → Rv × Cf σ
  | .ret rv view w, cf => (rv, { cf with view := view, world := w })
  | .parse filename view w k, cf =>
    let r := parse filename { cf with view := view, world := w }
    (k (Rv.of r.1) r.2.view r.2.args r.2.world).run parse r.2

/-- `cw_conf_handler`.  The first word is read as the name, and the handler's result is logged
unless it is `CW_CONF_OK` or `CW_CONF_ERROR`. -/
def confHandler (S : Sys σ) (T : Table σ) (parse : Parser σ) (last : Rc) (cf : Cf σ) :
    Except ParseError Unit × Cf σ :=
  match cf.args with
  | [] => (.error .noName, cf)
  | name :: _ =>
    match findCommand cf.view name false T.modules with
    | .notAllowed => (.error (.notAllowed name), cf)
    | .unknown => (.error (.unknown name), cf)
    | .command m cmd =>
      if cmd.type &&& confBlock = 0 ∧ last ≠ .ok then (.error (.notTerminated name), cf)
      else if cmd.type &&& confBlock ≠ 0 ∧ last ≠ .blockStart then (.error (.noOpening name), cf)
      else if ¬ admitsArgs cmd.type cf.args.length then (.error (.invalidArgs name), cf)
      else
        match (cmd.set cf.view cf.args (confPointer S cf.view m cmd cf.world) cf.world).run
          parse cf with
        | (.ok, cf) => (.ok (), cf)
        | (.error, cf) => (.error .setFailed, cf)
        | (.message text, cf) => (.error (.setSaid name text), cf)

/-! ## 4. `cw_conf_parse`

One function for three kinds of text.  For a file it opens, reads and closes; for a block or a
parameter it goes on with the file that is there.  The loop is the same for all, and differs only
in which end it accepts. -/

/-- The local `type`. -/
inductive ParseType
  | file
  | block
  | param
deriving DecidableEq, Repr

/-- The part of the loop after a token that ends in `;` or `{`. -/
def dispatch (S : Sys σ) (T : Table σ) (parse : Parser σ) (rc : Rc) (cf : Cf σ) :
    Step (Cf σ) (Except ParseError Unit × Cf σ) :=
  if cf.view.handler ≠ 0 then
    if rc = .blockStart then .done (.error .unexpectedOpen, cf)
    else
      match (T.custom cf.view.handler cf.view cf.args cf.world).run parse cf with
      | (.ok, cf) => .next cf
      | (.error, cf) => .done (.error .customFailed, cf)
      | (.message text, cf) => .done (.error (.customSaid text), cf)
  else
    match confHandler S T parse rc cf with
    | (.error e, cf) => .done (.error e, cf)
    | (.ok _, cf) => .next cf

/-- One round of the loop: a token, and what follows from its code in a text of this kind. -/
def parseStep (S : Sys σ) (T : Table σ) (parse : Parser σ) (type : ParseType) (cf : Cf σ) :
    Step (Cf σ) (Except ParseError Unit × Cf σ) :=
  match cf.conf with
  | none => .done (.error .noFile, cf)
  | some conf =>
    let r := readToken S conf cf.world
    let cf := { cf with args := r.args, conf := some r.conf, world := r.world }
    match r.rc with
    | .error e => .done (.error (.token e), cf)
    | .ok .blockDone =>
      if type ≠ .block then .done (.error .unexpectedClose, cf) else .done (.ok (), cf)
    | .ok .fileDone =>
      if type = .block then .done (.error .unexpectedEof, cf) else .done (.ok (), cf)
    | .ok .blockStart =>
      if type = .param then .done (.error .blockInParam, cf)
      else dispatch S T parse .blockStart cf
    | .ok .ok => dispatch S T parse .ok cf

/-- The loop.  A token that is dispatched has taken a byte at least, which bounds the rounds. -/
def parseLoop (S : Sys σ) (T : Table σ) (parse : Parser σ) (type : ParseType) (cf : Cf σ) :
    Except ParseError Unit × Cf σ :=
  match Loop.run (parseStep S T parse type) ((cf.conf.map ConfFile.unread).getD 0 + 1) cf with
  | some r => r
  | none => (.error .stuck, cf)

/-- The part after the label `done` for a file: the buffer is freed when there is one, the file
is closed, and `cf->conf_file` is what it was. -/
def closeConf (S : Sys σ) (fd : Int) (buf : Option Nat) (prev : Option ConfFile)
    (r : Except ParseError Unit × Cf σ) : Except ParseError Unit × Cf σ :=
  let w := match buf with
    | some p => S.free p r.2.world
    | none => r.2.world
  match S.closeFile fd w with
  | (true, w) => (r.1, { r.2 with conf := prev, world := w })
  | (false, w) => (.error .closeFailed, { r.2 with conf := prev, world := w })

/-- `cw_conf_parse`, for calls nested at most so many deep.  At depth 0 it gives up, which theorems
about whole parses show not to happen when there is more depth than the file has bytes. -/
def confParse (S : Sys σ) (T : Table σ) : Nat → Parser σ
  | 0, _, cf => (.error .stuck, cf)
  | n + 1, none, cf =>
    match cf.conf with
    | none => (.error .noFile, cf)
    | some conf =>
      parseLoop S T (confParse S T n) (if conf.file.fd ≠ invalidFile then .block else .param) cf
  | n + 1, some filename, cf =>
    let fd := S.openFile filename cf.world
    if fd.1 = invalidFile then (.error .openFailed, { cf with world := fd.2 })
    else
      -- a failing `fstat` is logged, and the size is what it left behind
      let info := S.fdInfo fd.1 fd.2
      let opened := some (ConfFile.opened fd.1 info.1.2)
      match S.alloc confBuffer info.2 with
      | (none, w) =>
        closeConf S fd.1 none cf.conf (.error .noBuffer, { cf with conf := opened, world := w })
      | (some buf, w) =>
        closeConf S fd.1 (some buf) cf.conf
          (parseLoop S T (confParse S T n) .file { cf with conf := opened, world := w })

/-- `cw_conf_param`; `param` is `cf->cycle->conf_param`.  The parameter is read as a text in
memory, and nothing is read when it is empty. -/
def confParam (S : Sys σ) (T : Table σ) (n : Nat) (param : List UInt8) (cf : Cf σ) :
    Except ParseError Unit × Cf σ :=
  if param.length = 0 then (.ok (), cf)
  else
    let r := confParse S T n none { cf with conf := some (.param param) }
    (r.1, { r.2 with conf := none })

end

end Capwap
