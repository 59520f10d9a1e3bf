/-
# `cw_conf_read_token`

The tokenizer of `cw_conf_file.c`, with its buffer.  A buffer is the list of the bytes from
`b->start` up to `b->last`; `pos` and the local `start` are offsets into it, and `cap` is
`b->end - b->start`.  The seven local flags are a record, `found` lives only inside one round,
and `nelts` is the length of the word list.

One round of the `for ( ;; )` is `tokenStep`: `refill` when `pos` has reached `last`, then one
byte.  What a byte does to the flags (`scanByte`) does not depend on the buffer; what follows
from it (a new `start`, a finished word, a return) is its `Move`.

Everything outside the file is a field of `Sys`, over a world `σ` of the caller's choice: the
allocators, the file system calls, and the array behind `cf->args`.
-/
import Capwap.Lib.Loop

namespace Capwap

/-! ## 1. Bytes -/

namespace Ch

abbrev tab : UInt8 := 9
abbrev lf : UInt8 := 10
abbrev cr : UInt8 := 13
abbrev space : UInt8 := 32
abbrev dquote : UInt8 := 34
abbrev sharp : UInt8 := 35
abbrev dollar : UInt8 := 36
abbrev squote : UInt8 := 39
abbrev rparen : UInt8 := 41
abbrev semicolon : UInt8 := 59
abbrev backslash : UInt8 := 92
abbrev lbrace : UInt8 := 123
abbrev rbrace : UInt8 := 125
/-- the letters of the escapes `\n`, `\r` and `\t` -/
abbrev n : UInt8 := 110
abbrev r : UInt8 := 114
abbrev t : UInt8 := 116

end Ch

/-- `ch == ' ' || ch == '\t' || ch == CR || ch == LF`. -/
def isBlank (ch : UInt8) : Bool :=
  ch == Ch.space || ch == Ch.tab || ch == Ch.cr || ch == Ch.lf

/-! ## 2. The system, files and buffers

The tokenizer allocates, reads and pushes words, and each of these may fail whenever the system
pleases.  `Sys` leaves the answers to the caller of the model: a theorem that holds for every `Sys`
holds for every pattern of failures.  The world `σ` goes through every call in the order the source
makes them, so a system may also remember what it was asked. -/

/-- What the parser asks of the system.  The Boolean of a call says whether it succeeded; a read
returns the bytes it got, or nothing when it failed. -/
structure Sys (σ : Type) where
  /-- `cw_open_file(name, CW_FILE_RDONLY, CW_FILE_OPEN, 0)`; -1 when it fails -/
  openFile : List UInt8 → σ → Int × σ
  /-- `cw_fd_info`, with the file size it leaves behind, whatever that is when it fails -/
  fdInfo : Int → σ → (Bool × Nat) × σ
  /-- `cw_alloc` of so many bytes -/
  alloc : Nat → σ → Option Nat × σ
  /-- `cw_free` -/
  free : Nat → σ → σ
  /-- `pread(fd, buf, size, offset)`: the bytes it put into `buf`, or `none` for -1 -/
  pread : Int → Nat → Nat → σ → Option (List UInt8) × σ
  /-- `cw_close_file` -/
  closeFile : Int → σ → Bool × σ
  /-- `cf->args->nelts = 0` -/
  clearArgs : σ → σ
  /-- `cw_array_push(cf->args)` -/
  arrayPush : σ → Bool × σ
  /-- `cw_pnalloc(cf->pool, size)` -/
  pnalloc : Nat → σ → Bool × σ
  /-- the pointer stored at an address -/
  load : Nat → σ → Nat

/-- `CW_INVALID_FILE`. -/
def invalidFile : Int := -1

/-- `CW_CONF_BUFFER`. -/
def confBuffer : Nat := 4096

/-- `cw_file_t`: the descriptor, `info.st_size` and the offset. -/
structure CwFile where
  fd : Int
  size : Nat
  offset : Nat
deriving DecidableEq, Repr

/-- `cw_buf_t`, with the bytes between `start` and `last`.  `pos` is where the next byte is taken,
and `cap` is the room from `start` to `end`. -/
structure Buf where
  bytes : List UInt8
  pos : Nat
  cap : Nat
deriving DecidableEq, Repr

/-- `cw_conf_file_t`.  `dump` is `NULL`, as nothing sets `cw_dump_config`. -/
structure ConfFile where
  file : CwFile
  buffer : Buf
  line : Nat
deriving DecidableEq, Repr

/-- What `cw_conf_parse` sets up for a file it has opened, which `fstat` says has `size`
bytes. -/
def ConfFile.opened (fd : Int) (size : Nat) : ConfFile :=
  { file := { fd := fd, size := size, offset := 0 }
    buffer := { bytes := [], pos := 0, cap := confBuffer }
    line := 1 }

/-- What `cw_conf_param` sets up for a text in memory. -/
def ConfFile.param (data : List UInt8) : ConfFile :=
  { file := { fd := invalidFile, size := 0, offset := 0 }
    buffer := { bytes := data, pos := 0, cap := data.length }
    line := 0 }

/-- An element of `cf->args`: `len`, and the bytes written at `data`.  The code writes a NUL behind
them that `len` does not count, and nothing stops a word from having a NUL inside. -/
structure Word where
  len : Nat
  data : List UInt8
deriving DecidableEq, Repr

/-- `cw_read_file`, the build with `pread`. -/
def readFile {σ : Type} (S : Sys σ) (file : CwFile) (size offset : Nat) (w : σ) :
    Option (List UInt8) × CwFile × σ :=
  match S.pread file.fd size offset w with
  | (none, w) => (none, file, w)
  | (some bs, w) => (some bs, { file with offset := file.offset + bs.length }, w)

/-! ## 3. What a call returns

`CW_ERROR` is one code for many reasons, and the log line is what tells them apart.  The model
keeps the reason with what the line shows, so that a theorem may speak about it; `overrun` and
`stuck` are no reasons of the source, and it is proved that they do not come up. -/

/-- The codes other than `CW_ERROR`: `CW_OK`, `CW_CONF_BLOCK_START`, `CW_CONF_BLOCK_DONE` and
`CW_CONF_FILE_DONE`. -/
inductive Rc
  | ok
  | blockStart
  | blockDone
  | fileDone
deriving DecidableEq, Repr

/-- Why a call returned `CW_ERROR`. -/
inductive TokenError
  /-- a byte that cannot stand here -/
  | unexpected (ch : UInt8)
  /-- the text ends inside a directive; `param` for a text given in memory -/
  | unexpectedEnd (param : Bool)
  /-- `CW_CONF_BUFFER` bytes since `start`; the open quote if any, and those bytes -/
  | tooLong (quote : Option UInt8) (kept : List UInt8)
  /-- `cw_read_file` returned `CW_ERROR` -/
  | readFailed
  /-- `cw_read_file` returned `n` bytes of `size` -/
  | readShort (n size : Nat)
  /-- no room for another word in `cf->args` -/
  | noElement
  /-- no room for the bytes of a word -/
  | noData
  /-- the byte at `b->last` was read -/
  | overrun
  /-- the bound on the number of rounds was too small -/
  | stuck
deriving DecidableEq, Repr

/-- `cw_read_file_n`: the call that `cw_read_file` reads with. -/
def readFileN (havePread : Bool) : String := if havePread then "pread()" else "read()"

/-- The format of the line that the tokenizer logs, if any.  Where `cw_read_file` fails it has
logged the call that failed itself. -/
def TokenError.format (havePread : Bool) : TokenError → Option String
  | .unexpected _ => some "unexpected \"%c\""
  | .unexpectedEnd true => some "unexpected end of parameter, expecting \";\""
  | .unexpectedEnd false => some "unexpected end of file, expecting \";\" or \"\x7d\""
  | .tooLong (some _) _ => some "too long parameter, probably missing terminating \"%c\" character"
  | .tooLong none _ => some "too long parameter \"%*s...\" started"
  | .readShort _ _ => some (readFileN havePread ++ " returned only %ld bytes instead of %ld")
  | .readFailed | .noElement | .noData | .overrun | .stuck => none

/-- The result of a call: the code, `cf->args`, `*cf->conf_file` and the world.  The words pushed
before an error stay in `cf->args`. -/
structure TokenResult (σ : Type) where
  rc : Except TokenError Rc
  args : List Word
  conf : ConfFile
  world : σ

/-- The return value: `CW_ERROR` is -1, `CW_OK` 0, `CW_CONF_BLOCK_START` 1,
`CW_CONF_BLOCK_DONE` 2 and `CW_CONF_FILE_DONE` 3. -/
def TokenResult.code {σ : Type} (r : TokenResult σ) : Int :=
  match r.rc with
  | .error _ => -1
  | .ok .ok => 0
  | .ok .blockStart => 1
  | .ok .blockDone => 2
  | .ok .fileDone => 3

/-- The call reported a parameter that is too long. -/
def TokenResult.TooLong {σ : Type} (r : TokenResult σ) : Prop :=
  ∃ quote kept, r.rc = .error (.tooLong quote kept)

/-! ## 4. One byte

The scanner is a cascade of tests on the flags and on the byte, in the order of the source: the
comment first, then a pending backslash, then a word that must be followed by a blank, then the two
branches of `last_space`.  It is a function of the flags, the byte and the number of words, since
this is all the tests look at. -/

/-- The flags of the scanner; `var` is `variable`. -/
structure Flags where
  needSpace : Bool
  lastSpace : Bool
  sharpComment : Bool
  var : Bool
  quoted : Bool
  sQuoted : Bool
  dQuoted : Bool
deriving DecidableEq, Repr

/-- The flags at the entry. -/
def Flags.start : Flags :=
  { needSpace := false, lastSpace := true, sharpComment := false, var := false, quoted := false,
    sQuoted := false, dQuoted := false }

/-- What a byte leads to. -/
inductive Move
  /-- go on with the next byte -/
  | go
  /-- go on, with `start` at this byte or `skip` bytes later -/
  | mark (skip : Nat)
  /-- a word ends before this byte -/
  | word
  /-- return a code -/
  | ret (rc : Rc)
  /-- log "unexpected" and return `CW_ERROR` -/
  | fail
deriving DecidableEq, Repr

/-- The branch `if (last_space)`. -/
def betweenWords (f : Flags) (nelts : Nat) (ch : UInt8) : Flags × Move :=
  if isBlank ch then (f, .go)
  else if ch = Ch.semicolon ∨ ch = Ch.lbrace then
    if nelts = 0 then (f, .fail)
    else if ch = Ch.lbrace then (f, .ret .blockStart)
    else (f, .ret .ok)
  else if ch = Ch.rbrace then
    if nelts ≠ 0 then (f, .fail) else (f, .ret .blockDone)
  else if ch = Ch.sharp then ({ f with sharpComment := true }, .mark 0)
  else if ch = Ch.backslash then ({ f with quoted := true, lastSpace := false }, .mark 0)
  else if ch = Ch.dquote then ({ f with dQuoted := true, lastSpace := false }, .mark 1)
  else if ch = Ch.squote then ({ f with sQuoted := true, lastSpace := false }, .mark 1)
  else ({ f with lastSpace := false }, .mark 0)

/-- The branch `else`. -/
def insideWord (f : Flags) (ch : UInt8) : Flags × Move :=
  if ch = Ch.lbrace ∧ f.var = true then (f, .go)
  else
    let f := { f with var := false }
    if ch = Ch.backslash then ({ f with quoted := true }, .go)
    else if ch = Ch.dollar then ({ f with var := true }, .go)
    else if f.dQuoted then
      if ch = Ch.dquote then ({ f with dQuoted := false, needSpace := true }, .word) else (f, .go)
    else if f.sQuoted then
      if ch = Ch.squote then ({ f with sQuoted := false, needSpace := true }, .word) else (f, .go)
    else if isBlank ch ∨ ch = Ch.semicolon ∨ ch = Ch.lbrace then
      ({ f with lastSpace := true }, .word)
    else (f, .go)

/-- The scanner from `if (last_space)` on. -/
def scanText (f : Flags) (nelts : Nat) (ch : UInt8) : Flags × Move :=
  if f.lastSpace then betweenWords f nelts ch else insideWord f ch

/-- The scanner after `ch = *b->pos++`.  `nelts` is `cf->args->nelts`, on which depends whether a
`;`, `{` or `}` may stand here. -/
def scanByte (f : Flags) (nelts : Nat) (ch : UInt8) : Flags × Move :=
  let f := if ch = Ch.lf then { f with sharpComment := false } else f
  if f.sharpComment then (f, .go)
  else if f.quoted then ({ f with quoted := false }, .go)
  else if f.needSpace then
    if isBlank ch then ({ f with lastSpace := true, needSpace := false }, .go)
    else if ch = Ch.semicolon then (f, .ret .ok)
    else if ch = Ch.lbrace then (f, .ret .blockStart)
    else if ch = Ch.rparen then scanText { f with lastSpace := true, needSpace := false } nelts ch
    else (f, .fail)
  else scanText f nelts ch

/-! ## 5. The bytes of a word

A word is read twice.  The scanner finds its end and remembers only whether a backslash is pending;
when the end is there, this loop goes over the bytes again, takes the escapes out and writes them
to the memory for the word. -/

/-- One round of the loop that copies a word: the byte written and the next `src`.  An escape that
means nothing is copied as it is, with its backslash first and the byte behind it in a round of its
own. -/
def copyByte (mem : List UInt8) (src : Nat) : UInt8 × Nat :=
  if mem.getD src 0 = Ch.backslash then
    let e := mem.getD (src + 1) 0
    if e = Ch.dquote ∨ e = Ch.squote ∨ e = Ch.backslash then (e, src + 2)
    else if e = Ch.t then (Ch.tab, src + 2)
    else if e = Ch.r then (Ch.cr, src + 2)
    else if e = Ch.n then (Ch.lf, src + 2)
    else (mem.getD src 0, src + 1)
  else (mem.getD src 0, src + 1)

/-- The loop, for at most `n` rounds: the bytes written and the final `src`.  `stop` is
`b->pos - 1`. -/
def copyLoop (mem : List UInt8) (stop : Nat) : Nat → Nat → List UInt8 × Nat
  | 0, src => ([], src)
  | n + 1, src =>
    if src < stop then
      let r := copyLoop mem stop n (copyByte mem src).2
      ((copyByte mem src).1 :: r.1, r.2)
    else ([], src)

/-- The word between `start` and `stop`.  `len` counts the rounds, each of which writes one
byte, and the terminating NUL follows. -/
def copyWord (mem : List UInt8) (start stop : Nat) : Word :=
  let dst := (copyLoop mem stop (stop - start) start).1
  { len := dst.length, data := dst ++ [0] }

/-! ## 6. The loop

A round refills the buffer when `pos` has reached `last` and then takes one byte.  `refill` and
`scan` are the two halves as functions of their own: one may end the call for want of bytes, the
other because of the byte. -/

/-- The state of the loop: the locals that last from round to round, and `cf`. -/
structure Tok (σ : Type) where
  flags : Flags
  start : Nat
  startLine : Nat
  args : List Word
  conf : ConfFile
  world : σ

namespace Tok

variable {σ : Type}

/-- Return a code. -/
def ret (t : Tok σ) (rc : Rc) : Step (Tok σ) (TokenResult σ) :=
  .done { rc := .ok rc, args := t.args, conf := t.conf, world := t.world }

/-- Return `CW_ERROR`. -/
def fail (t : Tok σ) (e : TokenError) : Step (Tok σ) (TokenResult σ) :=
  .done { rc := .error e, args := t.args, conf := t.conf, world := t.world }

end Tok

section
variable {σ : Type}

/-- The locals and `cf->args` at the entry. -/
def Tok.init (S : Sys σ) (conf : ConfFile) (w : σ) : Tok σ :=
  { flags := .start, start := conf.buffer.pos, startLine := conf.line, args := [], conf := conf,
    world := S.clearArgs w }

/-- The part under `if (b->pos >= b->last)`.  It reports the end of the text or a parameter that is
too long; otherwise it moves the bytes from `start` on to the front of the buffer and reads the
file behind them. -/
def refill (S : Sys σ) (t : Tok σ) : Step (Tok σ) (TokenResult σ) :=
  let b := t.conf.buffer
  let file := t.conf.file
  if b.pos ≥ b.bytes.length then
    if file.offset ≥ file.size then
      if t.args.length > 0 ∨ t.flags.lastSpace = false then
        t.fail (.unexpectedEnd (file.fd == invalidFile))
      else t.ret .fileDone
    else
      let len := b.pos - t.start
      -- what `cw_memmove` brings to `b->start`
      let kept := (b.bytes.drop t.start).take len
      if len = confBuffer then
        let quote := if t.flags.dQuoted then some Ch.dquote
          else if t.flags.sQuoted then some Ch.squote else none
        { t with conf := { t.conf with line := t.startLine } }.fail (.tooLong quote kept)
      else
        let size := if file.size - file.offset > b.cap - len then b.cap - len
          else file.size - file.offset
        match readFile S file size file.offset t.world with
        | (none, file, w) =>
          { t with conf := { t.conf with file := file }, world := w }.fail .readFailed
        | (some bs, file, w) =>
          if bs.length ≠ size then
            { t with conf := { t.conf with file := file }, world := w }.fail
              (.readShort bs.length size)
          else
            .next { t with
              start := 0
              conf := { t.conf with
                file := file, buffer := { bytes := kept ++ bs, pos := len, cap := b.cap } }
              world := w }
  else .next t

/-- The word that ends before the byte at `stop` is pushed, and the byte itself may end the
directive.  There must be room for another element and for the bytes of the word. -/
def pushWord (S : Sys σ) (t : Tok σ) (stop : Nat) (ch : UInt8) :
    Step (Tok σ) (TokenResult σ) :=
  match S.arrayPush t.world with
  | (false, w) => { t with world := w }.fail .noElement
  | (true, w) =>
    match S.pnalloc (stop - t.start + 1) w with
    | (false, w) =>
      -- the new element is left with `data` NULL
      { t with args := t.args ++ [(⟨0, []⟩ : Word)], world := w }.fail .noData
    | (true, w) =>
      let t := { t with
        args := t.args ++ [copyWord t.conf.buffer.bytes t.start stop], world := w }
      if ch = Ch.semicolon then t.ret .ok
      else if ch = Ch.lbrace then t.ret .blockStart
      else .next t

/-- The part after `ch = *b->pos++`. -/
def scan (S : Sys σ) (t : Tok σ) : Step (Tok σ) (TokenResult σ) :=
  let b := t.conf.buffer
  match b.bytes[b.pos]? with
  | none => t.fail .overrun
  | some ch =>
    let r := scanByte t.flags t.args.length ch
    let conf := { t.conf with
      buffer := { b with pos := b.pos + 1 }
      line := if ch = Ch.lf then t.conf.line + 1 else t.conf.line }
    let t := { t with flags := r.1, conf := conf }
    match r.2 with
    | .go => .next t
    | .mark skip => .next { t with start := b.pos + skip, startLine := conf.line }
    | .word => pushWord S t b.pos ch
    | .ret rc => t.ret rc
    | .fail => t.fail (.unexpected ch)

/-- One round. -/
def tokenStep (S : Sys σ) (t : Tok σ) : Step (Tok σ) (TokenResult σ) :=
  match refill S t with
  | .done r => .done r
  | .next t => scan S t

/-- The bytes not yet consumed, in the buffer and in the file. -/
def ConfFile.unread (conf : ConfFile) : Nat :=
  (conf.buffer.bytes.length - conf.buffer.pos) + (conf.file.size - conf.file.offset)

/-- `cw_conf_read_token`.  Every round takes a byte, so the bytes at hand bound the rounds, and one
round more sees that there are none. -/
def readToken (S : Sys σ) (conf : ConfFile) (w : σ) : TokenResult σ :=
  match Loop.run (tokenStep S) (conf.unread + 1) (Tok.init S conf w) with
  | some r => r
  | none => { rc := .error .stuck, args := [], conf := conf, world := w }

end

end Capwap
