import StackLang.Parser.State
import StackLang.Program

/-!
# Statements and constructs

A statement is told by its first token. Most are complete after one or two more
tokens. A branch, a loop and a function enclose blocks of statements, each of
which goes on until a token that closes it; the parser keeps what has been read
of such a construct as a `Construct`, named for the block that is being read.

Both ways forward are given as actions that are run after their first token has
been consumed: `begin?` for a token that starts a statement, `Construct.close?`
for a token that closes the block being read. Both are `none` for other tokens.
So every successful action has consumed at least that token.

## Main definitions

* `Construct`: A construct whose current block is being read.
* `Progress`: A statement is complete, or a block of a construct comes next.
* `resolve`, `assignment`, `declaration`: Statements about a name.
* `header`: The part of a function before its body.
* `begin?`: What a token that starts a statement leads to.
* `Construct.close?`: What a token that closes a block leads to.

## Theorems

* `begin?_forward`: Starting a statement moves forward.
* `Construct.close?_forward`: Closing a block moves forward.
-/

namespace StackLang

/-- A construct that is being read, up to the block that comes now. -/
inductive Construct where
  /-- The block after `IF`. -/
  | branch
  /-- The block after `ELSE`. -/
  | alternative (block : List Stmt)
  /-- The block after `BEGIN`. -/
  | condition
  /-- The block after `WHILE`. -/
  | body (condition : List Stmt)
  /-- The body of a function. -/
  | function (name : String) (parameters : List String)
deriving Repr

/-- What would end the block that is being read. -/
def Construct.expected : Construct → Expected
  | .branch => .elseOrThen
  | .alternative _ => .thenAlone
  | .condition => .whileAlone
  | .body _ => .repeatAlone
  | .function _ _ => .returnAlone

/-- What the tokens just read amount to. -/
inductive Progress where
  /-- A complete statement. -/
  | statement (s : Stmt)
  /-- A construct, whose next block follows. -/
  | block (c : Construct)
deriving Repr

open ParseM

/-- Blame a name that stands for nothing visible. -/
def unresolved (n : Names) (t : Token) : ParseM Progress :=
  match n.scope with
  | some f => fail (.outOfScope f.function) t
  | none => fail .undefinedName t

/-- Take the next token if it is `ASSIGN`, and say whether it was. -/
def acceptAssign : ParseM Bool := fun p =>
  match p.ahead with
  | [] => .ok false p
  | t :: ts =>
      if t.kind = .keyword .ASSIGN then .ok true { p with ahead := ts } else .ok false p

/-- A name at the start of a statement. A variable followed by `ASSIGN` is
    assigned to, whatever follows; otherwise it is read. -/
def resolve (t : Token) : ParseM Progress := do
  let n ← names
  -- In a body no variable has the name of a function; outside, a variable wins.
  if n.isVariable t.text then
    let assigned ← acceptAssign
    pure (.statement (if assigned then .assign t.text t.loc else .read t.text t.loc))
  else if n.isFunction t.text then
    pure (.statement (.call t.text t.loc))
  else
    unresolved n t

/-- The rest of `VARIABLE name`. -/
def declaration (t : Token) : ParseM Progress := do
  let name ← expect .identifier .declaredName
  let n ← names
  if n.isFree name.text then
    setNames (n.declare name.text)
    pure (.statement (.declare name.text t.loc))
  else
    fail .duplicateName name

/-- The rest of `ASSIGN name`. -/
def assignment (t : Token) : ParseM Progress := do
  let name ← expect .identifier .assignedName
  let n ← names
  if n.isVariable name.text then
    pure (.statement (.assign name.text t.loc))
  else if n.isFunction name.text then
    fail .assignedFunction name
  else
    unresolved n name

/-- The parameters `VALUE a VALUE b … )` among the given tokens, after those
    already seen, and the tokens after them. A failure blames a token and leaves
    the tokens from there on, or after it if it is a name that is not free. -/
def parametersFrom (n : Names) (stop : Token) :
    List String → List Token → Except ParseError (List String) × List Token
  | _, [] => (.error ⟨.unexpected .parameterOrClose, stop⟩, [])
  | seen, t :: ts =>
      match t.kind with
      | .closeParen => (.ok seen, ts)
      | .keyword .VALUE =>
          match ts with
          | [] => (.error ⟨.unexpected .parameterName, stop⟩, [])
          | name :: rest =>
              if name.kind = .identifier then
                if n.isFreeLocal seen name.text then
                  parametersFrom n stop (seen ++ [name.text]) rest
                else (.error ⟨.duplicateName, name⟩, rest)
              else (.error ⟨.unexpected .parameterName, name⟩, name :: rest)
      | _ => (.error ⟨.unexpected .parameterOrClose, t⟩, t :: ts)

/-- Take the parameters of a function and the closing parenthesis. -/
def parameters : ParseM (List String) := fun p =>
  match parametersFrom p.names p.stop [] p.ahead with
  | (.ok ps, rest) => .ok ps { p with ahead := rest }
  | (.error e, rest) => .error e { p with ahead := rest }

/-- The rest of `| NAME ( VALUE a VALUE b … )`. Functions do not nest. -/
def header (t : Token) : ParseM Progress := do
  let p ← get
  if p.names.scope.isSome then
    fail (.unexpected (if p.headerAhead then .innerStatement else .returnBeforeBar)) t
  else
    let name ← expect .identifier .functionName
    let n ← names
    if n.isGlobal name.text then
      fail .duplicateName name
    else
      -- The name counts as declared from here on, whatever becomes of the rest.
      setNames (n.declareFunction name.text)
      let _ ← expect .openParen .openParen
      let ps ← parameters
      let n ← names
      setNames (n.enter name.text ps)
      pure (.block (.function name.text ps))

/-- What a token that starts a statement leads to, once it has been consumed;
    `none` if no statement starts with it. -/
def begin? (t : Token) : Option (ParseM Progress) :=
  match t.kind with
  | .integer n => some (pure (.statement (.literal (.int n) t.loc)))
  | .boolean b => some (pure (.statement (.literal (.bool b) t.loc)))
  | .operator op => some (pure (.statement (.operator op t.loc)))
  | .print => some (pure (.statement (.print t.loc)))
  | .identifier => some (resolve t)
  | .keyword .VARIABLE => some (declaration t)
  | .keyword .ASSIGN => some (assignment t)
  | .keyword .IF => some (pure (.block .branch))
  | .keyword .BEGIN => some (pure (.block .condition))
  | .bar => some (header t)
  | _ => none

/-- The arity that a token stands for. -/
def Token.arity? (t : Token) : Option Arity :=
  match t.kind with
  | .integer n => Arity.ofCount? n
  | _ => none

/-- The rest of a function, `RETURN arity |`, after its body. -/
def returnPart (name : String) (ps : List String) (body : List Stmt) (loc : Location) :
    ParseM Progress := do
  let n ← names
  -- The scope ends with the body, also if no arity follows.
  setNames n.leave
  let t ← advance
  match t.arity? with
  | none => fail .badArity t
  | some arity =>
      let _ ← expect .bar .closingBar
      pure (.statement (.function ⟨name, ps, n.locals, arity, loc⟩ body))

/-- What a token that closes the block `block` of a construct at `loc` leads to,
    once it has been consumed; `none` if it does not close the block. -/
def Construct.close? (c : Construct) (loc : Location) (block : List Stmt) (t : Token) :
    Option (ParseM Progress) :=
  match c, t.kind with
  | .branch, .keyword .THEN => some (pure (.statement (.ifThen block loc)))
  | .branch, .keyword .ELSE => some (pure (.block (.alternative block)))
  | .alternative first, .keyword .THEN => some (pure (.statement (.ifElse first block loc)))
  | .condition, .keyword .WHILE => some (pure (.block (.body block)))
  | .body test, .keyword .REPEAT => some (pure (.statement (.loop test block loc)))
  | .function name ps, .keyword .RETURN => some (returnPart name ps block loc)
  | _, _ => none

theorem forward_unresolved (n : Names) (t : Token) : Forward (unresolved n t) := by
  unfold unresolved
  split <;> exact forward_fail _ _

theorem forward_acceptAssign : Forward acceptAssign := by
  intro p
  unfold acceptAssign
  cases h : p.ahead with
  | nil => exact ⟨h ▸ List.suffix_refl _, rfl⟩
  | cons t ts =>
      by_cases hk : t.kind = .keyword .ASSIGN
      · simp only [hk, if_true, and_true]
        exact List.suffix_cons t ts
      · simp only [hk, if_false, and_true]
        exact h ▸ List.suffix_refl _

theorem forward_resolve (t : Token) : Forward (resolve t) := by
  refine forward_names.bind fun n => ?_
  split
  · exact forward_acceptAssign.bind fun _ => forward_pure _
  · split
    · exact forward_pure _
    · exact forward_unresolved n t

theorem forward_declaration (t : Token) : Forward (declaration t) := by
  refine (forward_expect _ _).bind fun name => forward_names.bind fun n => ?_
  split
  · exact (forward_setNames _).bind fun _ => forward_pure _
  · exact forward_fail _ _

theorem forward_assignment (t : Token) : Forward (assignment t) := by
  refine (forward_expect _ _).bind fun name => forward_names.bind fun n => ?_
  split
  · exact forward_pure _
  · split
    · exact forward_fail _ _
    · exact forward_unresolved n name

theorem parametersFrom_suffix (n : Names) (stop : Token) (seen : List String) (ts : List Token) :
    (parametersFrom n stop seen ts).2 <:+ ts := by
  fun_induction parametersFrom n stop seen ts with
  | case1 => exact List.suffix_refl _
  | case2 seen t ts => exact List.suffix_cons t ts
  | case3 seen t => exact List.suffix_cons t []
  | case4 seen t _ name rest _ _ ih =>
      exact (ih.trans (List.suffix_cons name rest)).trans (List.suffix_cons t (name :: rest))
  | case5 seen t _ name rest =>
      exact (List.suffix_cons name rest).trans (List.suffix_cons t (name :: rest))
  | case6 seen t _ name rest => exact List.suffix_cons t (name :: rest)
  | case7 => exact List.suffix_refl _

theorem forward_parameters : Forward parameters := by
  intro p
  have h := parametersFrom_suffix p.names p.stop [] p.ahead
  unfold parameters
  cases hp : parametersFrom p.names p.stop [] p.ahead with
  | mk result rest =>
      rw [hp] at h
      cases result with
      | ok ps => exact ⟨h, rfl⟩
      | error e => exact ⟨h, rfl⟩

theorem forward_header (t : Token) : Forward (header t) := by
  refine forward_get.bind fun p => ?_
  split
  · exact forward_fail _ _
  · refine (forward_expect _ _).bind fun name => forward_names.bind fun n => ?_
    split
    · exact forward_fail _ _
    · exact (forward_setNames _).bind fun _ => (forward_expect _ _).bind fun _ =>
        forward_parameters.bind fun ps => forward_names.bind fun m =>
        (forward_setNames _).bind fun _ => forward_pure _

theorem forward_returnPart (name : String) (ps : List String) (body : List Stmt)
    (loc : Location) : Forward (returnPart name ps body loc) := by
  refine forward_names.bind fun n => (forward_setNames _).bind fun _ =>
    forward_advance.bind fun t => ?_
  split
  · exact forward_fail _ _
  · exact (forward_expect _ _).bind fun _ => forward_pure _

theorem begin?_forward {t : Token} {x : ParseM Progress} (h : begin? t = some x) :
    Forward x := by
  obtain ⟨kind, text, loc⟩ := t
  cases kind with
  | integer n => exact Option.some.inj h ▸ forward_pure _
  | boolean b => exact Option.some.inj h ▸ forward_pure _
  | operator op => exact Option.some.inj h ▸ forward_pure _
  | print => exact Option.some.inj h ▸ forward_pure _
  | identifier => exact Option.some.inj h ▸ forward_resolve _
  | bar => exact Option.some.inj h ▸ forward_header _
  | keyword k =>
      cases k with
      | VARIABLE => exact Option.some.inj h ▸ forward_declaration _
      | ASSIGN => exact Option.some.inj h ▸ forward_assignment _
      | IF => exact Option.some.inj h ▸ forward_pure _
      | BEGIN => exact Option.some.inj h ▸ forward_pure _
      | ELSE | THEN | WHILE | REPEAT | VALUE | RETURN => nomatch h
  | openParen | closeParen | endOfInput => nomatch h

theorem Construct.close?_forward {c : Construct} {loc : Location} {block : List Stmt}
    {t : Token} {x : ParseM Progress} (h : c.close? loc block t = some x) : Forward x := by
  unfold Construct.close? at h
  split at h
  · exact Option.some.inj h ▸ forward_pure _
  · exact Option.some.inj h ▸ forward_pure _
  · exact Option.some.inj h ▸ forward_pure _
  · exact Option.some.inj h ▸ forward_pure _
  · exact Option.some.inj h ▸ forward_pure _
  · exact Option.some.inj h ▸ forward_returnPart _ _ _ _
  · nomatch h

end StackLang
