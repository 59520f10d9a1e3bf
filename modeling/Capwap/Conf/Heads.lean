/-
# A round of the parser without its handler

A round of `cw_conf_parse` reads a token and then either ends or has one handler run, custom or a
directive's, and goes on with what that returns.  `roundHead` is the round up to the handler, which
it names and does not run, so that what calls the parser again is in one place (`parseStep_eq`).

Statements about what a parse does when handlers call it again are by cases on the head, and then
by induction on the handler.
-/
import Capwap.Conf.Parse

namespace Capwap

section
variable {σ : Type}

/-! ## 1. The head of a round

The functions here repeat the ones of `Conf/Parse.lean` with the call of the handler taken out.
What is left of a round depends on no parser, so facts about it are proved once and not for every
depth. -/

/-- What a round comes to: it ends, or the handler `a` runs and `back` says what follows. -/
inductive Head (σ : Type)
  | done (r : Except ParseError Unit × Cf σ)
  | call (a : Act σ) (cf : Cf σ)
      (back : Rv → Cf σ → Step (Cf σ) (Except ParseError Unit × Cf σ))

/-- The round, once there is a parser for the handler to call. -/
def Head.resume (parse : Parser σ) : Head σ → Step (Cf σ) (Except ParseError Unit × Cf σ)
  | .done r => .done r
  | .call a cf back => back (a.run parse cf).1 (a.run parse cf).2

/-- After the custom handler. -/
def afterCustom (rv : Rv) (cf : Cf σ) : Step (Cf σ) (Except ParseError Unit × Cf σ) :=
  match rv with
  | .ok => .next cf
  | .error => .done (.error .customFailed, cf)
  | .message text => .done (.error (.customSaid text), cf)

/-- After a directive's handler. -/
def afterSet (name : Word) (rv : Rv) (cf : Cf σ) : Step (Cf σ) (Except ParseError Unit × Cf σ) :=
  match rv with
  | .ok => .next cf
  | .error => .done (.error .setFailed, cf)
  | .message text => .done (.error (.setSaid name text), cf)

/-- `cw_conf_handler`, up to the call of `set`. -/
def handlerHead (S : Sys σ) (T : Table σ) (last : Rc) (cf : Cf σ) : Head σ :=
  match cf.args with
  | [] => .done (.error .noName, cf)
  | name :: _ =>
    match findCommand cf.view name false T.modules with
    | .notAllowed => .done (.error (.notAllowed name), cf)
    | .unknown => .done (.error (.unknown name), cf)
    | .command m cmd =>
      if cmd.type &&& confBlock = 0 ∧ last ≠ .ok then .done (.error (.notTerminated name), cf)
      else if cmd.type &&& confBlock ≠ 0 ∧ last ≠ .blockStart then
        .done (.error (.noOpening name), cf)
      else if ¬ admitsArgs cmd.type cf.args.length then .done (.error (.invalidArgs name), cf)
      else
        .call (cmd.set cf.view cf.args (confPointer S cf.view m cmd cf.world) cf.world) cf
          (afterSet name)

/-- The part after a token that ends in `;` or `{`: the custom handler, if one is set and the token
is a directive, or `cw_conf_handler`. -/
def dispatchHead (S : Sys σ) (T : Table σ) (rc : Rc) (cf : Cf σ) : Head σ :=
  if cf.view.handler ≠ 0 then
    if rc = .blockStart then .done (.error .unexpectedOpen, cf)
    else .call (T.custom cf.view.handler cf.view cf.args cf.world) cf afterCustom
  else handlerHead S T rc cf

/-- What follows the token `r`: the checks of its code against the kind of the parse, and then the
dispatch. -/
def tokenHead (S : Sys σ) (T : Table σ) (type : ParseType) (rc : Except TokenError Rc)
    (cf : Cf σ) : Head σ :=
  match rc with
  | .error e => .done (.error (.token e), cf)
  | .ok .blockDone => .done (if type ≠ .block then (.error .unexpectedClose, cf) else (.ok (), cf))
  | .ok .fileDone => .done (if type = .block then (.error .unexpectedEof, cf) else (.ok (), cf))
  | .ok .blockStart =>
    if type = .param then .done (.error .blockInParam, cf) else dispatchHead S T .blockStart cf
  | .ok .ok => dispatchHead S T .ok cf

/-- The state after `open` and `fstat`, before the buffer is allocated. -/
def openedCf (S : Sys σ) (filename : List UInt8) (cf : Cf σ) : Cf σ :=
  let fd := S.openFile filename cf.world
  let info := S.fdInfo fd.1 fd.2
  { cf with conf := some (.opened fd.1 info.1.2), world := info.2 }

/-- What a token leaves in `cf`. -/
def Cf.took (cf : Cf σ) (r : TokenResult σ) : Cf σ :=
  { cf with args := r.args, conf := some r.conf, world := r.world }

/-- A round, up to the handler. -/
def roundHead (S : Sys σ) (T : Table σ) (type : ParseType) (conf : ConfFile) (cf : Cf σ) :
    Head σ :=
  tokenHead S T type (readToken S conf cf.world).rc (cf.took (readToken S conf cf.world))

variable {S : Sys σ} {T : Table σ} {parse : Parser σ}

theorem handlerHead_resume (rc : Rc) (cf : Cf σ) :
    (handlerHead S T rc cf).resume parse
      = match confHandler S T parse rc cf with
        | (.error e, cf) => .done (.error e, cf)
        | (.ok _, cf) => .next cf := by
  unfold handlerHead confHandler
  cases hargs : cf.args with
  | nil => rfl
  | cons name rest =>
    simp only
    cases findCommand cf.view name false T.modules with
    | notAllowed => rfl
    | unknown => rfl
    | command m cmd =>
      simp only
      by_cases h1 : cmd.type &&& confBlock = 0 ∧ rc ≠ .ok
      · rw [if_pos h1, if_pos h1]
        rfl
      rw [if_neg h1, if_neg h1]
      by_cases h2 : cmd.type &&& confBlock ≠ 0 ∧ rc ≠ .blockStart
      · rw [if_pos h2, if_pos h2]
        rfl
      rw [if_neg h2, if_neg h2]
      by_cases h3 : ¬ admitsArgs cmd.type (name :: rest).length
      · rw [if_pos h3, if_pos h3]
        rfl
      rw [if_neg h3, if_neg h3]
      simp only [Head.resume]
      cases (cmd.set cf.view (name :: rest) (confPointer S cf.view m cmd cf.world) cf.world).run
        parse cf with
      | mk rv cf' => cases rv <;> rfl

theorem dispatchHead_resume (rc : Rc) (cf : Cf σ) :
    (dispatchHead S T rc cf).resume parse = dispatch S T parse rc cf := by
  unfold dispatchHead dispatch
  by_cases hz : cf.view.handler ≠ 0
  · rw [if_pos hz, if_pos hz]
    by_cases hb : rc = .blockStart
    · rw [if_pos hb, if_pos hb]
      rfl
    · rw [if_neg hb, if_neg hb]
      simp only [Head.resume]
      cases (T.custom cf.view.handler cf.view cf.args cf.world).run parse cf with
      | mk rv cf' => cases rv <;> rfl
  · rw [if_neg hz, if_neg hz]
    exact handlerHead_resume rc cf

/-- A round is its head, and the handler that the head asks for.  Later proofs start from this
equation and do not unfold `parseStep`. -/
theorem parseStep_eq (S : Sys σ) (T : Table σ) (parse : Parser σ) (type : ParseType)
    {conf : ConfFile} {cf : Cf σ} (hconf : cf.conf = some conf) :
    parseStep S T parse type cf = (roundHead S T type conf cf).resume parse := by
  unfold parseStep roundHead tokenHead
  simp only [hconf]
  cases (readToken S conf cf.world).rc with
  | error e => rfl
  | ok rc =>
    cases rc with
    | blockDone =>
      simp only [Head.resume]
      by_cases h : type ≠ .block
      · rw [if_pos h, if_pos h]
        rfl
      · rw [if_neg h, if_neg h]
        rfl
    | fileDone =>
      simp only [Head.resume]
      by_cases h : type = .block
      · rw [if_pos h, if_pos h]
        rfl
      · rw [if_neg h, if_neg h]
        rfl
    | blockStart =>
      simp only
      by_cases h : type = .param
      · rw [if_pos h, if_pos h]
        rfl
      · rw [if_neg h, if_neg h]
        exact (dispatchHead_resume .blockStart _).symm
    | ok => exact (dispatchHead_resume .ok _).symm

/-! ## 2. What a head can be

Two relations that forget what does not matter to a run: which of the many errors it was, and how
the command was found. -/

/-- The handlers a round can call: the custom handler, for a token that ends in `;`, or the handler
of the directive's command. -/
inductive Called (S : Sys σ) (T : Table σ) (rc : Rc) (cf : Cf σ) :
    Act σ → (Rv → Cf σ → Step (Cf σ) (Except ParseError Unit × Cf σ)) → Prop
  | custom (hz : cf.view.handler ≠ 0) (hrc : rc ≠ .blockStart) :
      Called S T rc cf (T.custom cf.view.handler cf.view cf.args cf.world) afterCustom
  | set {name : Word} {rest : List Word} {m : Module σ} {cmd : Command σ}
      (hargs : cf.args = name :: rest)
      (hfind : findCommand cf.view name false T.modules = .command m cmd)
      (hcount : admitsArgs cmd.type cf.args.length = true) :
      Called S T rc cf (cmd.set cf.view cf.args (confPointer S cf.view m cmd cf.world) cf.world)
        (afterSet name)

/-- A round ends with what the token left, and successfully at the end of a block or of a text; or
the token ended in `;` or `{` and a handler is called. -/
inductive Comes (S : Sys σ) (T : Table σ) (type : ParseType) (rc : Except TokenError Rc)
    (cf : Cf σ) : Head σ → Prop
  | done (res : Except ParseError Unit)
      (hok : res = .ok () → (rc = .ok .blockDone ∧ type = .block) ∨
        (rc = .ok .fileDone ∧ type ≠ .block)) :
      Comes S T type rc cf (.done (res, cf))
  | call {last : Rc} {a : Act σ} {back : Rv → Cf σ → Step (Cf σ) (Except ParseError Unit × Cf σ)}
      (hrc : rc = .ok last) (hlast : last = .ok ∨ last = .blockStart)
      (ha : Called S T last cf a back) : Comes S T type rc cf (.call a cf back)

theorem Comes.failed {type : ParseType} {rc : Except TokenError Rc} {cf : Cf σ} (e : ParseError) :
    Comes S T type rc cf (.done (.error e, cf)) := .done _ (by simp)

theorem dispatchHead_comes {type : ParseType} {last : Rc} (hlast : last = .ok ∨ last = .blockStart)
    (cf : Cf σ) : Comes S T type (.ok last) cf (dispatchHead S T last cf) := by
  unfold dispatchHead
  by_cases hz : cf.view.handler ≠ 0
  · rw [if_pos hz]
    by_cases hb : last = .blockStart
    · rw [if_pos hb]
      exact .failed _
    · rw [if_neg hb]
      exact .call rfl hlast (.custom hz hb)
  · rw [if_neg hz]
    unfold handlerHead
    split
    · exact .failed _
    · rename_i name rest hargs
      split
      · exact .failed _
      · exact .failed _
      · rename_i m cmd hfind
        split_ifs with h1 h2 h3
        · exact .failed _
        · exact .failed _
        · exact .call rfl hlast (.set hargs hfind h3)
        · exact .failed _

theorem tokenHead_comes (S : Sys σ) (T : Table σ) (type : ParseType) (rc : Except TokenError Rc)
    (cf : Cf σ) : Comes S T type rc cf (tokenHead S T type rc cf) := by
  unfold tokenHead
  split
  · exact .failed _
  · split
    · exact .failed _
    · rename_i h
      exact .done _ fun _ => Or.inl ⟨rfl, not_not.mp h⟩
  · split
    · exact .failed _
    · rename_i h
      exact .done _ fun _ => Or.inr ⟨rfl, h⟩
  · split
    · exact .failed _
    · exact dispatchHead_comes (Or.inr rfl) cf
  · exact dispatchHead_comes (Or.inl rfl) cf

/-- A parse goes on after a handler that succeeded, and fails after one that did not.  What the
handler says in its message only matters for the log. -/
theorem Called.back {rc : Rc} {cf : Cf σ} {a : Act σ}
    {back : Rv → Cf σ → Step (Cf σ) (Except ParseError Unit × Cf σ)}
    (h : Called S T rc cf a back) (rv : Rv) (cf' : Cf σ) :
    (rv = .ok ∧ back rv cf' = .next cf') ∨ rv ≠ .ok ∧ ∃ e, back rv cf' = .done (.error e, cf') := by
  cases h with
  | custom _ _ =>
    cases rv with
    | ok => exact Or.inl ⟨rfl, rfl⟩
    | error => exact Or.inr ⟨by simp, _, rfl⟩
    | message text => exact Or.inr ⟨by simp, _, rfl⟩
  | set _ _ _ =>
    cases rv with
    | ok => exact Or.inl ⟨rfl, rfl⟩
    | error => exact Or.inr ⟨by simp, _, rfl⟩
    | message text => exact Or.inr ⟨by simp, _, rfl⟩

end

end Capwap
