import StackLang.Fault
import StackLang.Program

/-!
# Scopes

A scope binds names to variables and functions, one namespace for both. A
running program has the global scope and, for each active call, a scope of its
own; scopes never fall through to one another.

A scope is the list of its bindings in the order of declaration. A binding is
never removed and a function is never rebound, so the order of declaration is
the order of the list, and storing a value changes one entry in place.

## Main definitions

* `Binding`: A variable with its value, or a function.
* `Scope`: Bindings in the order of declaration.
* `Scope.declare`: A new binding.
* `Scope.allocate`: A variable, new or reset to zero.
* `Scope.assign`: A new value for a variable.
* `Scope.find?`, `Scope.value`, `Scope.function`: Looking a name up.
* `Scope.cells`: The variables with their values, in order.

## Theorems

* `Scope.find?_put`: Storing changes the look-up of its own name only.
* `Scope.find?_append`: A new binding is found unless an older one is.
-/

namespace StackLang

/-- What a name is bound to. -/
inductive Binding where
  /-- A variable, holding a value. -/
  | cell (v : Value)
  | function (f : Function)
deriving Repr

/-- Why a scope refuses an operation. -/
inductive ScopeError where
  | duplicateName (name : String)
  | undefinedName (name : String)
deriving DecidableEq, Repr

namespace ScopeError

/-- The wording of a refusal. -/
def message : ScopeError → String
  | .duplicateName name => s!"'{name}' is already declared"
  | .undefinedName name => s!"undefined name '{name}'"

/-- The fault that a refusal causes in a running program. -/
def fault : ScopeError → Fault
  | .duplicateName name => .duplicateName name
  | .undefinedName name => .undefinedName name

end ScopeError

/-- A namespace of variables and functions. -/
structure Scope where
  /-- The bindings in the order of declaration. -/
  entries : List (String × Binding)
deriving Repr

namespace Scope

/-- The scope without bindings. -/
def empty : Scope := ⟨[]⟩

/-- What a name is bound to. -/
def find? (s : Scope) (x : String) : Option Binding := s.entries.lookup x

/-- Whether a name is bound. -/
def contains (s : Scope) (x : String) : Bool := (s.find? x).isSome

/-- The number of bindings. -/
def size (s : Scope) : Nat := s.entries.length

/-- The names in the order of declaration. -/
def names (s : Scope) : List String := s.entries.map Prod.fst

/-- The entries with the value of the variable `x` replaced. -/
def replace (x : String) (v : Value) : List (String × Binding) → List (String × Binding)
  | [] => []
  | (y, b) :: es => if x = y then (y, .cell v) :: es else (y, b) :: replace x v es

/-- The scope with another value stored under a bound name. -/
def put (s : Scope) (x : String) (v : Value) : Scope := ⟨replace x v s.entries⟩

/-- Bind a name that is not bound yet. -/
def declare (s : Scope) (x : String) (b : Binding) : Except ScopeError Scope :=
  match s.find? x with
  | some _ => .error (.duplicateName x)
  | none => .ok ⟨s.entries ++ [(x, b)]⟩

/-- Make a variable that holds zero, or set an existing one to zero. A function
    is not replaced. -/
def allocate (s : Scope) (x : String) : Except ScopeError Scope :=
  match s.find? x with
  | some (.cell _) => .ok (s.put x .zero)
  | some (.function _) => .error (.duplicateName x)
  | none => s.declare x (.cell .zero)

/-- Store a value in an existing variable. -/
def assign (s : Scope) (x : String) (v : Value) : Except ScopeError Scope :=
  match s.find? x with
  | some (.cell _) => .ok (s.put x v)
  | _ => .error (.undefinedName x)

/-- What a name is bound to, or an error if it is not bound. -/
def resolve (s : Scope) (x : String) : Except ScopeError Binding :=
  match s.find? x with
  | some b => .ok b
  | none => .error (.undefinedName x)

/-- The value of a variable. -/
def value (s : Scope) (x : String) : Except ScopeError Value :=
  match s.find? x with
  | some (.cell v) => .ok v
  | _ => .error (.undefinedName x)

/-- The function of a name. -/
def function (s : Scope) (x : String) : Except ScopeError Function :=
  match s.find? x with
  | some (.function f) => .ok f
  | _ => .error (.undefinedName x)

/-- The variables with their values, in the order of declaration. -/
def cells (s : Scope) : List (String × Value) :=
  s.entries.filterMap fun
    | (x, .cell v) => some (x, v)
    | (_, .function _) => none

@[simp]
theorem find?_empty (x : String) : empty.find? x = none := rfl

theorem find?_append (s : Scope) (x y : String) (b : Binding) :
    find? ⟨s.entries ++ [(x, b)]⟩ y = (s.find? y).or (if y = x then some b else none) := by
  unfold find?
  rw [List.lookup_append]
  by_cases h : y = x
  · simp [h]
  · have hb : (y == x) = false := by simpa using h
    simp [List.lookup_cons, h, hb]

theorem lookup_replace (x y : String) (v : Value) (es : List (String × Binding)) :
    (replace x v es).lookup y =
      if y = x then (es.lookup x).map fun _ => .cell v else es.lookup y := by
  induction es with
  | nil => simp [replace]
  | cons e es ih =>
      obtain ⟨z, b⟩ := e
      by_cases hxz : x = z
      -- The entry that is replaced: only its own name sees the new value.
      · subst hxz
        by_cases hy : y = x
        · simp [replace, hy]
        · have hb : (y == x) = false := by simpa using hy
          simp [replace, List.lookup_cons, hy, hb]
      -- Any other entry is kept, and the search goes on behind it.
      · have hb : (x == z) = false := by simpa using hxz
        by_cases hy : y = x
        · subst hy
          simpa [replace, List.lookup_cons, hxz, hb] using ih
        · simp only [hy, if_false] at ih
          cases hyz : y == z <;> simp [replace, List.lookup_cons, hxz, hy, hyz, ih]

theorem find?_put (s : Scope) (x y : String) (v : Value) :
    (s.put x v).find? y = if y = x then (s.find? x).map fun _ => .cell v else s.find? y :=
  lookup_replace x y v s.entries

@[simp]
theorem names_put (s : Scope) (x : String) (v : Value) : (s.put x v).names = s.names := by
  obtain ⟨es⟩ := s
  simp only [put, names]
  induction es with
  | nil => rfl
  | cons e es ih =>
      obtain ⟨y, b⟩ := e
      by_cases h : x = y
      · simp [replace, h]
      · simpa [replace, h] using ih

end Scope

end StackLang
