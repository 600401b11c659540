import Mathlib.Data.List.Nodup
import StackLang.Proofs.Bindings

/-!
# Dictionaries

A scope can be kept in two parts: a table, in which a name is found at once, and apart from it
the names in the order of declaration. This is a `Dictionary`. The operations on it change the two
parts one after the other, in place.

All operations have one form. Each looks at what its own name is bound to, and from that alone it
is decided whether it is admitted: a declaration if the name is new, an allocation if it is no
function, an assignment if it is a variable. If the operation is admitted, its binding is stored
under its name, which is put at the end of the order if it is new; and if it is not, it fails
before anything has changed. `Operation.run_eq` says this of all operations at once, and
`Operation.onScope_of_admits` says the same of a `Scope`, which has its bindings in the order of
declaration and needs no second part.

## Main definitions

* `Dictionary`: A table of bindings and the order of their declarations.
* `Dictionary.declare`, `Dictionary.allocate`, `Dictionary.assign`: The operations.
* `Dictionary.size`, `Dictionary.cells`: The number of bindings, and the variables in order.
* `Dictionary.Operation`: The operations as data.
* `Dictionary.Operation.admits`: Whether an operation is admitted.

## Theorems

* `Dictionary.Operation.run_eq`: What an operation does.
* `Dictionary.Operation.fails_iff`: When an operation fails.
* `Dictionary.Operation.onScope_of_admits`, `Dictionary.Operation.onScope_of_not_admits`: What it
  does with a scope.
-/

namespace StackLang

/-- A namespace in two parts. -/
structure Dictionary where
  /-- What each name is bound to. -/
  table : Std.HashMap String Binding
  /-- The names in the order of declaration. -/
  order : List String

/-- Actions on a dictionary. What an action has changed before it fails stays changed. -/
abbrev DictionaryM := EStateM ScopeError Dictionary

namespace Dictionary

/-- The dictionary without bindings. -/
def empty : Dictionary := ⟨∅, []⟩

/-- Bind a name that is not bound yet. -/
def declare (x : String) (b : Binding) : DictionaryM Unit := do
  let d ← get
  if d.table.contains x then
    throw (.duplicateName x)
  modify fun d => { d with order := d.order ++ [x] }
  modify fun d => { d with table := d.table.insert x b }

/-- Make a variable that holds zero, or set an existing one to zero. A function is not
    replaced. -/
def allocate (x : String) : DictionaryM Unit := do
  let d ← get
  match d.table[x]? with
  | some (.cell _) => modify fun d => { d with table := d.table.insert x (.cell .zero) }
  | some (.function _) => throw (.duplicateName x)
  | none => declare x (.cell .zero)

/-- Store a value in an existing variable. -/
def assign (x : String) (v : Value) : DictionaryM Unit := do
  let d ← get
  match d.table[x]? with
  | some (.cell _) => modify fun d => { d with table := d.table.insert x (.cell v) }
  | _ => throw (.undefinedName x)

/-- The number of bindings. -/
def size (d : Dictionary) : Nat := d.table.size

/-- The variables with their values, in the order of declaration. -/
def cells (d : Dictionary) : List (String × Value) :=
  d.order.filterMap fun x : String =>
    match d.table[x]? with
    | some (.cell v) => some (x, v)
    | _ => none

/-- The dictionary with a binding under a name, which is listed last if it is new. -/
def store (d : Dictionary) (x : String) (b : Binding) : Dictionary :=
  ⟨d.table.insert x b, if x ∈ d.table then d.order else d.order ++ [x]⟩

/-- What can be asked of a dictionary or a scope. -/
inductive Operation where
  | declare (x : String) (b : Binding)
  | allocate (x : String)
  | assign (x : String) (v : Value)

namespace Operation

/-- The name that an operation is about. -/
def name : Operation → String
  | .declare x _ => x
  | .allocate x => x
  | .assign x _ => x

/-- What an operation binds its name to. -/
def binding : Operation → Binding
  | .declare _ b => b
  | .allocate _ => .cell .zero
  | .assign _ v => .cell v

/-- Whether an operation can bind a new name. -/
def declares : Operation → Bool
  | .declare _ _ => true
  | .allocate _ => true
  | .assign _ _ => false

/-- Whether an operation is admitted, when its name is bound like this. -/
def admits : Operation → Option Binding → Bool
  | .declare _ _, b => b.isNone
  | .allocate _, some (.function _) => false
  | .allocate _, _ => true
  | .assign _ _, some (.cell _) => true
  | .assign _ _, _ => false

/-- Why an operation is not admitted. -/
def refusal : Operation → ScopeError
  | .declare x _ => .duplicateName x
  | .allocate x => .duplicateName x
  | .assign x _ => .undefinedName x

/-- An operation on a dictionary. -/
def run : Operation → DictionaryM Unit
  | .declare x b => Dictionary.declare x b
  | .allocate x => Dictionary.allocate x
  | .assign x v => Dictionary.assign x v

/-- The same operation on a scope. -/
def onScope : Operation → Scope → Except ScopeError Scope
  | .declare x b => fun s => s.declare x b
  | .allocate x => fun s => s.allocate x
  | .assign x v => fun s => s.assign x v

end Operation

section Operations

variable {d : Dictionary} {x y : String} {b : Binding}

theorem mem_table_iff : x ∈ d.table ↔ ∃ b, d.table[x]? = some b := by
  rw [Std.HashMap.mem_iff_isSome_getElem?, Option.isSome_iff_exists]

theorem not_mem_table_iff : x ∉ d.table ↔ d.table[x]? = none := by
  rw [mem_table_iff, not_exists, Option.eq_none_iff_forall_ne_some]

@[simp]
theorem table_store : (d.store x b).table[y]? = if y = x then some b else d.table[y]? := by
  rw [store, Std.HashMap.getElem?_insert]
  by_cases h : x = y
  · rw [if_pos (beq_iff_eq.2 h), if_pos h.symm]
  · rw [if_neg (mt beq_iff_eq.1 h), if_neg (Ne.symm h)]

theorem store_of_mem (h : x ∈ d.table) : d.store x b = ⟨d.table.insert x b, d.order⟩ := by
  rw [store, if_pos h]

theorem store_of_not_mem (h : x ∉ d.table) :
    d.store x b = ⟨d.table.insert x b, d.order ++ [x]⟩ := by
  rw [store, if_neg h]

/-- An action that looks at the dictionary first. -/
theorem get_bind (f : Dictionary → DictionaryM Unit) (d : Dictionary) :
    (get >>= f : DictionaryM Unit) d = f d d := rfl

theorem declare_of_mem (h : x ∈ d.table) : declare x b d = .error (.duplicateName x) d := by
  have hx : d.table.contains x = true := h
  rw [declare, get_bind, if_pos hx]
  rfl

theorem declare_of_not_mem (h : x ∉ d.table) : declare x b d = .ok () (d.store x b) := by
  have hx : ¬ d.table.contains x = true := h
  rw [declare, get_bind, if_neg hx, store_of_not_mem h]
  rfl

namespace Operation

theorem run_declare (d : Dictionary) (x : String) (b : Binding) :
    Dictionary.declare x b d =
      if (Operation.declare x b).admits d.table[x]? then .ok () (d.store x b)
      else .error (.duplicateName x) d := by
  by_cases hx : x ∈ d.table
  · rcases mem_table_iff.1 hx with ⟨b', hb'⟩
    rw [declare_of_mem hx, hb']
    rfl
  · rw [declare_of_not_mem hx, not_mem_table_iff.1 hx]
    rfl

theorem run_allocate (d : Dictionary) (x : String) :
    Dictionary.allocate x d =
      if (Operation.allocate x).admits d.table[x]? then .ok () (d.store x (.cell .zero))
      else .error (.duplicateName x) d := by
  rw [Dictionary.allocate, get_bind]
  cases hx : d.table[x]? with
  | none => exact declare_of_not_mem (not_mem_table_iff.2 hx)
  | some b =>
      rw [store_of_mem (mem_table_iff.2 ⟨b, hx⟩)]
      cases b <;> rfl

theorem run_assign (d : Dictionary) (x : String) (v : Value) :
    Dictionary.assign x v d =
      if (Operation.assign x v).admits d.table[x]? then .ok () (d.store x (.cell v))
      else .error (.undefinedName x) d := by
  rw [Dictionary.assign, get_bind]
  cases hx : d.table[x]? with
  | none => rfl
  | some b =>
      rw [store_of_mem (mem_table_iff.2 ⟨b, hx⟩)]
      cases b <;> rfl

/-- An operation stores its binding if it is admitted, and otherwise it fails and changes
    nothing. -/
theorem run_eq (op : Operation) (d : Dictionary) :
    op.run d =
      if op.admits d.table[op.name]? then .ok () (d.store op.name op.binding)
      else .error op.refusal d := by
  cases op with
  | declare x b => exact run_declare d x b
  | allocate x => exact run_allocate d x
  | assign x v => exact run_assign d x v

/-- A function stays what it is. -/
theorem admits_function (op : Operation) (f : Function) :
    op.admits (some (.function f)) = false := by
  cases op <;> rfl

/-- What is stored in a variable is a value. -/
theorem exists_binding_of_admits {op : Operation} {v : Value}
    (h : op.admits (some (.cell v)) = true) : ∃ w, op.binding = .cell w := by
  cases op with
  | declare x b => cases h
  | allocate x => exact ⟨_, rfl⟩
  | assign x w => exact ⟨w, rfl⟩

/-- Only declarations bind new names. -/
theorem declares_of_admits {op : Operation} (h : op.admits none = true) : op.declares = true := by
  cases op with
  | declare x b => rfl
  | allocate x => rfl
  | assign x v => cases h

/-- Both kinds of declarations bind a new name in a scope. -/
theorem onScope_of_new {op : Operation} {s : Scope} (hx : s.find? op.name = none)
    (h : op.admits none = true) : op.onScope s = s.declare op.name op.binding := by
  cases op with
  | declare x b => rfl
  | allocate x =>
      rw [name] at hx
      simp only [onScope, Scope.allocate, hx, name, binding]
  | assign x v => cases h

/-- Allocations and assignments store a value in a variable of a scope. -/
theorem onScope_of_cell {op : Operation} {s : Scope} {v : Value}
    (hx : s.find? op.name = some (.cell v)) (h : op.admits (some (.cell v)) = true) :
    ∃ w, op.binding = .cell w ∧ op.onScope s = .ok (s.put op.name w) := by
  cases op with
  | declare x b => cases h
  | allocate x =>
      rw [name] at hx
      refine ⟨.zero, rfl, ?_⟩
      simp only [onScope, Scope.allocate, hx, name]
  | assign x w =>
      rw [name] at hx
      refine ⟨w, rfl, ?_⟩
      simp only [onScope, Scope.assign, hx, name]

/-- An operation on a scope stores its binding if it is admitted. -/
theorem onScope_of_admits {op : Operation} {s : Scope} (h : op.admits (s.find? op.name) = true) :
    ∃ t, op.onScope s = .ok t ∧
      (∀ y, t.find? y = if y = op.name then some op.binding else s.find? y) ∧
      t.names = if (s.find? op.name).isSome then s.names else s.names ++ [op.name] := by
  cases hx : s.find? op.name with
  | none =>
      rw [hx] at h
      have hdeclare : s.declare op.name op.binding =
          .ok ⟨s.entries ++ [(op.name, op.binding)]⟩ := by
        rw [Scope.declare, hx]
      refine ⟨_, (onScope_of_new hx h).trans hdeclare, Scope.find?_declare hdeclare, ?_⟩
      rw [Scope.names, Scope.names, List.map_append]
      rfl
  | some b =>
      rw [hx] at h
      cases b with
      | function f =>
          rw [admits_function] at h
          cases h
      | cell v =>
          rcases onScope_of_cell hx h with ⟨w, hw, hput⟩
          refine ⟨_, hput, fun y => ?_, ?_⟩
          · rw [Scope.find?_put, hx, hw]
            rfl
          · rw [Scope.names_put]
            rfl

theorem onScope_of_not_admits {op : Operation} {s : Scope}
    (h : op.admits (s.find? op.name) = false) : op.onScope s = .error op.refusal := by
  cases op with
  | declare x b =>
      cases hx : s.find? x with
      | none => rw [name, hx] at h; cases h
      | some b => simp only [onScope, Scope.declare, hx, refusal]
  | allocate x =>
      cases hx : s.find? x with
      | none => rw [name, hx] at h; cases h
      | some b =>
          rw [name, hx] at h
          cases b with
          | cell v => cases h
          | function f => simp only [onScope, Scope.allocate, hx, refusal]
  | assign x v =>
      cases hx : s.find? x with
      | none => simp only [onScope, Scope.assign, hx, refusal]
      | some b =>
          rw [name, hx] at h
          cases b with
          | cell v => cases h
          | function f => simp only [onScope, Scope.assign, hx, refusal]

end Operation

end Operations

section Failures

/-- An operation fails if it is not admitted, and only then. -/
theorem Operation.fails_iff (op : Operation) (d : Dictionary) :
    (∃ e d', op.run d = .error e d') ↔ op.admits d.table[op.name]? = false := by
  rw [op.run_eq]
  cases hop : op.admits d.table[op.name]? with
  | true =>
      rw [if_pos rfl]
      refine iff_of_false ?_ (Ne.symm Bool.false_ne_true)
      rintro ⟨e, d', h⟩
      cases h
  | false =>
      rw [if_neg Bool.false_ne_true]
      exact iff_of_true ⟨_, _, rfl⟩ rfl

variable {d : Dictionary}

theorem declare_fails_iff (x : String) (b : Binding) :
    (∃ e d', declare x b d = .error e d') ↔ x ∈ d.table := by
  refine ((Operation.declare x b).fails_iff d).trans ?_
  rw [mem_table_iff, Operation.name]
  cases d.table[x]? with
  | none => simp [Operation.admits]
  | some c => simp [Operation.admits]

theorem allocate_fails_iff (x : String) :
    (∃ e d', allocate x d = .error e d') ↔ ∃ f, d.table[x]? = some (.function f) := by
  refine ((Operation.allocate x).fails_iff d).trans ?_
  rw [Operation.name]
  cases d.table[x]? with
  | none => simp [Operation.admits]
  | some c => cases c <;> simp [Operation.admits]

theorem assign_fails_iff (x : String) (v : Value) :
    (∃ e d', assign x v d = .error e d') ↔ ¬ ∃ w, d.table[x]? = some (.cell w) := by
  refine ((Operation.assign x v).fails_iff d).trans ?_
  rw [Operation.name]
  cases d.table[x]? with
  | none => simp [Operation.admits]
  | some c => cases c <;> simp [Operation.admits]

/-- An operation that fails has its own reason, and has changed nothing. -/
theorem Operation.eq_of_run_error {op : Operation} {e : ScopeError} {d' : Dictionary}
    (h : op.run d = .error e d') : e = op.refusal ∧ d' = d := by
  rw [op.run_eq] at h
  split at h
  next => cases h
  next =>
      cases h
      exact ⟨rfl, rfl⟩

end Failures

end Dictionary

end StackLang
