/-!
# Names in scope

A name is resolved while the program is read. Outside functions the variables
declared so far are visible. In the body of a function only its parameters and
the variables declared in the body so far are. Functions are visible everywhere,
also before their declaration: their headers are collected from the whole text
beforehand.

A new name must be free. Outside functions that means that no variable and no
function has been declared with it so far. A parameter or a variable in a body
must in addition differ from the function's other parameters and variables and
from every function of the whole text.

## Main definitions

* `FunctionScope`: The function whose body is being read.
* `Names`: Everything declared so far.
* `Names.isVariable`, `Names.isFunction`: What a name stands for here.
* `Names.isFree`, `Names.isFreeLocal`: Whether a name can be declared here.
* `Names.declare`: The names after a declaration.
-/

namespace StackLang

/-- The function whose body is being read, with the variables declared in the
    body so far. -/
structure FunctionScope where
  function : String
  parameters : List String
  vars : List String
deriving DecidableEq, Repr

namespace FunctionScope

/-- The names of a function's own scope. -/
def locals (f : FunctionScope) : List String := f.parameters ++ f.vars

end FunctionScope

/-- The names declared so far. -/
structure Names where
  /-- The functions whose headers stand anywhere in the text. -/
  headers : List String
  /-- The variables declared outside functions. -/
  vars : List String
  /-- The functions whose declarations have been met. -/
  functions : List String
  /-- Those of the variables that no finished program has taken yet. -/
  pending : List String
  /-- The function whose body is being read, if any. -/
  scope : Option FunctionScope
deriving DecidableEq, Repr

namespace Names

/-- Nothing declared, with the headers of a text. -/
def ofHeaders (headers : List String) : Names := ⟨headers, [], [], [], none⟩

/-- Whether a name is declared outside functions. -/
def isGlobal (n : Names) (x : String) : Bool :=
  n.vars.contains x || n.functions.contains x

/-- Whether a name is a variable or parameter that is visible here. -/
def isVariable (n : Names) (x : String) : Bool :=
  match n.scope with
  | some f => f.locals.contains x
  | none => n.vars.contains x

/-- Whether a name is a function. -/
def isFunction (n : Names) (x : String) : Bool :=
  n.headers.contains x || n.functions.contains x

/-- Whether a name can be a parameter or variable of a function that already has
    the given ones. -/
def isFreeLocal (n : Names) (locals : List String) (x : String) : Bool :=
  !(locals.contains x || n.isGlobal x || n.isFunction x)

/-- Whether a variable of this name can be declared here. -/
def isFree (n : Names) (x : String) : Bool :=
  match n.scope with
  | some f => n.isFreeLocal f.locals x
  | none => !n.isGlobal x

/-- The names after a variable has been declared here. -/
def declare (n : Names) (x : String) : Names :=
  match n.scope with
  | some f => { n with scope := some { f with vars := f.vars ++ [x] } }
  | none => { n with vars := n.vars ++ [x], pending := n.pending ++ [x] }

/-- The names after the header of a function has been met. -/
def declareFunction (n : Names) (x : String) : Names :=
  { n with functions := n.functions ++ [x] }

/-- The names at the start of a function's body. -/
def enter (n : Names) (function : String) (parameters : List String) : Names :=
  { n with scope := some ⟨function, parameters, []⟩ }

/-- The variables declared in the body that is being read. -/
def locals (n : Names) : List String :=
  match n.scope with
  | some f => f.vars
  | none => []

/-- The names after the body of a function. -/
def leave (n : Names) : Names := { n with scope := none }

/-- The names after a program has been finished and has taken its variables. -/
def release (n : Names) : Names := { n with pending := [] }

end Names

end StackLang
