import StackLang.Parser.Construct

/-!
# The grammar

Which tokens make which statements, said without a parser.

A grammar rule here goes from the tokens ahead to the tokens that are left, and
from the names declared so far to those declared after. `Reads n ts ss n' rest`
says that with the names `n` the tokens `ts` start with the statements `ss`, that
these leave the names `n'`, and that the tokens `rest` follow. Nothing says where
a block has to end: a construct that encloses a block asks for its closing token
in what the block has left, and no statement starts with such a token.

Statements that enclose no others are read by `Simple`, which needs no
recursion, and the parameters of a function by `Parameters`.

## Main definitions

* `Simple`: The statements that enclose no others.
* `Parameters`: The parameters of a function, up to the closing parenthesis.
* `Reads`: The statements of a block.

## Theorems

* `Reads.append`: Blocks in turn are one block.
* `Reads.single`: A simple statement is a block.
-/

namespace StackLang

/-- The tokens start with a statement that encloses no others. -/
inductive Simple (n : Names) : List Token → Stmt → Names → List Token → Prop
  | integer {t : Token} {ts : List Token} {i : Integer} (ht : t.kind = .integer i) :
      Simple n (t :: ts) (.literal (.int i) t.loc) n ts
  | boolean {t : Token} {ts : List Token} {b : Bool} (ht : t.kind = .boolean b) :
      Simple n (t :: ts) (.literal (.bool b) t.loc) n ts
  | operator {t : Token} {ts : List Token} {op : Operator} (ht : t.kind = .operator op) :
      Simple n (t :: ts) (.operator op t.loc) n ts
  | print {t : Token} {ts : List Token} (ht : t.kind = .print) :
      Simple n (t :: ts) (.print t.loc) n ts
  /-- `name ASSIGN`. -/
  | assignAfter {t a : Token} {ts : List Token} (ht : t.kind = .identifier)
      (hvar : n.isVariable t.text) (ha : a.kind = .keyword .ASSIGN) :
      Simple n (t :: a :: ts) (.assign t.text t.loc) n ts
  /-- A variable that is not followed by `ASSIGN`. -/
  | read {t : Token} {ts : List Token} (ht : t.kind = .identifier) (hvar : n.isVariable t.text)
      (hnext : ∀ a ∈ ts.head?, a.kind ≠ .keyword .ASSIGN) :
      Simple n (t :: ts) (.read t.text t.loc) n ts
  | call {t : Token} {ts : List Token} (ht : t.kind = .identifier)
      (hvar : n.isVariable t.text = false) (hfunction : n.isFunction t.text) :
      Simple n (t :: ts) (.call t.text t.loc) n ts
  /-- `VARIABLE name`. -/
  | declare {t x : Token} {ts : List Token} (ht : t.kind = .keyword .VARIABLE)
      (hx : x.kind = .identifier) (hfree : n.isFree x.text) :
      Simple n (t :: x :: ts) (.declare x.text t.loc) (n.declare x.text) ts
  /-- `ASSIGN name`. -/
  | assign {t x : Token} {ts : List Token} (ht : t.kind = .keyword .ASSIGN)
      (hx : x.kind = .identifier) (hvar : n.isVariable x.text) :
      Simple n (t :: x :: ts) (.assign x.text t.loc) n ts

/-- The tokens start with the parameters that come after those already seen, and the
    closing parenthesis. -/
inductive Parameters (n : Names) : List String → List Token → List String → List Token → Prop
  | close {seen : List String} {t : Token} {ts : List Token} (ht : t.kind = .closeParen) :
      Parameters n seen (t :: ts) seen ts
  | value {seen ps : List String} {t x : Token} {ts rest : List Token}
      (ht : t.kind = .keyword .VALUE) (hx : x.kind = .identifier)
      (hfree : n.isFreeLocal seen x.text) (hrest : Parameters n (seen ++ [x.text]) ts ps rest) :
      Parameters n seen (t :: x :: ts) ps rest

/-- The tokens start with the statements of a block. -/
inductive Reads : Names → List Token → List Stmt → Names → List Token → Prop
  | nil {n : Names} {ts : List Token} : Reads n ts [] n ts
  | simple {n n₁ n' : Names} {ts ts₁ rest : List Token} {s : Stmt} {ss : List Stmt}
      (hs : Simple n ts s n₁ ts₁) (hss : Reads n₁ ts₁ ss n' rest) :
      Reads n ts (s :: ss) n' rest
  /-- `IF block THEN`. -/
  | ifThen {n n₁ n' : Names} {t e : Token} {ts ts₁ rest : List Token} {block ss : List Stmt}
      (ht : t.kind = .keyword .IF) (hblock : Reads n ts block n₁ (e :: ts₁))
      (he : e.kind = .keyword .THEN) (hss : Reads n₁ ts₁ ss n' rest) :
      Reads n (t :: ts) (.ifThen block t.loc :: ss) n' rest
  /-- `IF block ELSE other THEN`. -/
  | ifElse {n n₁ n₂ n' : Names} {t e e' : Token} {ts ts₁ ts₂ rest : List Token}
      {block other ss : List Stmt} (ht : t.kind = .keyword .IF)
      (hblock : Reads n ts block n₁ (e :: ts₁)) (he : e.kind = .keyword .ELSE)
      (hother : Reads n₁ ts₁ other n₂ (e' :: ts₂)) (he' : e'.kind = .keyword .THEN)
      (hss : Reads n₂ ts₂ ss n' rest) :
      Reads n (t :: ts) (.ifElse block other t.loc :: ss) n' rest
  /-- `BEGIN condition WHILE body REPEAT`. -/
  | loop {n n₁ n₂ n' : Names} {t e e' : Token} {ts ts₁ ts₂ rest : List Token}
      {condition body ss : List Stmt} (ht : t.kind = .keyword .BEGIN)
      (hcondition : Reads n ts condition n₁ (e :: ts₁)) (he : e.kind = .keyword .WHILE)
      (hbody : Reads n₁ ts₁ body n₂ (e' :: ts₂)) (he' : e'.kind = .keyword .REPEAT)
      (hss : Reads n₂ ts₂ ss n' rest) :
      Reads n (t :: ts) (.loop condition body t.loc :: ss) n' rest
  /-- `| name ( parameters ) body RETURN arity |`. -/
  | function {n n₁ n' : Names} {bar name paren e count bar' : Token}
      {ts ts₁ ts₂ rest : List Token} {ps : List String} {body ss : List Stmt} {arity : Arity}
      (hscope : n.scope = none) (hbar : bar.kind = .bar) (hname : name.kind = .identifier)
      (hfree : n.isGlobal name.text = false) (hparen : paren.kind = .openParen)
      (hps : Parameters (n.declareFunction name.text) [] ts ps ts₁)
      (hbody : Reads ((n.declareFunction name.text).enter name.text ps) ts₁ body n₁
        (e :: count :: bar' :: ts₂))
      (he : e.kind = .keyword .RETURN) (hcount : count.arity? = some arity)
      (hbar' : bar'.kind = .bar) (hss : Reads n₁.leave ts₂ ss n' rest) :
      Reads n (bar :: name :: paren :: ts)
        (.function ⟨name.text, ps, n₁.locals, arity, bar.loc⟩ body :: ss) n' rest

namespace Reads

theorem append {n n₁ n' : Names} {ts ts₁ rest : List Token} {ss ss' : List Stmt}
    (h : Reads n ts ss n₁ ts₁) (h' : Reads n₁ ts₁ ss' n' rest) :
    Reads n ts (ss ++ ss') n' rest := by
  induction h with
  | nil => exact h'
  | simple hs _ ih => exact .simple hs (ih h')
  | ifThen ht hblock he _ _ ih => exact .ifThen ht hblock he (ih h')
  | ifElse ht hblock he hother he' _ _ _ ih => exact .ifElse ht hblock he hother he' (ih h')
  | loop ht hcondition he hbody he' _ _ _ ih => exact .loop ht hcondition he hbody he' (ih h')
  | function hscope hbar hname hfree hparen hps hbody he hcount hbar' _ _ ih =>
      exact .function hscope hbar hname hfree hparen hps hbody he hcount hbar' (ih h')

theorem single {n n' : Names} {ts rest : List Token} {s : Stmt} (h : Simple n ts s n' rest) :
    Reads n ts [s] n' rest :=
  .simple h .nil

end Reads

end StackLang
