import Mathlib.Data.List.Induction
import StackLang.Proofs.Dictionary

/-!
# The parts of a dictionary

The table of a dictionary and the order of its names never drift apart, whatever is declared,
allocated and assigned, and whichever of these operations fail.

An operation does one of two things, so what it keeps is shown in two cases. That the two parts
agree is `Coherent`: no name is listed twice, and those listed are those bound. What they hold is
told by the operations that have succeeded, and `Records` says how: the order is that of the first
declarations, and each name is bound to what has been written last. A `Scope` that has been
through the same operations has the same bindings in the same order: `Represents`. All three
hold of an empty dictionary and are kept by each operation, so they hold after any of them.

## Main definitions

* `Dictionary.after`, `Dictionary.accepted`: The dictionary after some operations, and those of
  them that have succeeded.
* `Dictionary.scopeAfter`: The scope after the same operations.
* `Dictionary.Coherent`: The two parts agree.
* `Dictionary.Records`: A dictionary is what some operations have made of it.
* `Dictionary.Represents`: A dictionary holds the bindings of a scope.
* `Dictionary.Faithful`: What is so after any operations.

## Theorems

* `Dictionary.Coherent.attempt`, `Dictionary.Records.attempt`, `Dictionary.Represents.attempt`:
  What one operation keeps.
* `Dictionary.Coherent.size_eq`, `Dictionary.Coherent.mem_cells_iff`: The views of a dictionary.
* `Dictionary.faithful_after`: What any number of operations keep.
-/

namespace StackLang

/-- Without repeated names every binding of a scope is found. -/
theorem Scope.find?_of_mem_entries {s : Scope} {x : String} {b : Binding} (h : s.names.Nodup)
    (hmem : (x, b) ∈ s.entries) : s.find? x = some b := by
  obtain ⟨es⟩ := s
  rw [find?]
  rw [names] at h
  induction es with
  | nil => cases hmem
  | cons e es ih =>
      rcases e with ⟨y, c⟩
      rcases List.nodup_cons.1 h with ⟨hy, hes⟩
      rcases List.mem_cons.1 hmem with heq | hlater
      · cases heq
        exact List.lookup_cons_self
      · have hne : (x == y) = false := by
          rw [beq_eq_false_iff_ne]
          intro heq
          exact hy (List.mem_map.2 ⟨_, hlater, heq⟩)
        rw [List.lookup_cons, hne]
        exact ih hes hlater

namespace Dictionary

/-- A dictionary and the operations that have succeeded on it, after one more operation. -/
def attempt (h : Dictionary × List Operation) (op : Operation) : Dictionary × List Operation :=
  match op.run h.1 with
  | .ok _ d => (d, h.2 ++ [op])
  | .error _ d => (d, h.2)

/-- The dictionary after some operations on the empty one, whether they succeed or fail. -/
def after (ops : List Operation) : Dictionary := (ops.foldl attempt (empty, [])).1

/-- Those of the operations that have succeeded. -/
def accepted (ops : List Operation) : List Operation := (ops.foldl attempt (empty, [])).2

/-- The scope after some operations on the empty one. An operation that fails leaves it as it
    is. -/
def scopeAfter (ops : List Operation) : Scope :=
  ops.foldl (fun s op => (op.onScope s).toOption.getD s) Scope.empty

/-- The names that are declared by some operations, each where it is declared first. -/
def declared (log : List Operation) : List String :=
  ((log.filter Operation.declares).map Operation.name).eraseDups

/-- What has been written last under a name by some operations. -/
def lastWritten (log : List Operation) (x : String) : Option Binding :=
  (log.reverse.find? fun op => op.name = x).map Operation.binding

/-- The two parts of a dictionary agree. -/
structure Coherent (d : Dictionary) : Prop where
  nodup : d.order.Nodup
  mem_order : ∀ x, x ∈ d.order ↔ x ∈ d.table

/-- A dictionary is what the given operations have made of it. -/
structure Records (d : Dictionary) (log : List Operation) : Prop where
  order : d.order = declared log
  table : ∀ x, d.table[x]? = lastWritten log x

/-- A dictionary holds the bindings of a scope. -/
structure Represents (d : Dictionary) (s : Scope) : Prop where
  names : s.names = d.order
  find : ∀ x, s.find? x = d.table[x]?

section Attempts

variable {d : Dictionary} {log : List Operation} {op : Operation} {s : Scope} {x : String}

theorem attempt_of_admits (h : op.admits d.table[op.name]? = true) :
    attempt (d, log) op = (d.store op.name op.binding, log ++ [op]) := by
  rw [attempt, op.run_eq, if_pos h]

theorem attempt_of_not_admits (h : op.admits d.table[op.name]? = false) :
    attempt (d, log) op = (d, log) := by
  rw [attempt, op.run_eq, if_neg (by rw [h]; decide)]

/-- What is so of a dictionary is so after an operation, if storing the binding of the operation
    keeps it. -/
theorem of_attempt {P : Dictionary → Prop} (h : P d)
    (hstore : op.admits d.table[op.name]? = true → P (d.store op.name op.binding))
    (log : List Operation) : P (attempt (d, log) op).1 := by
  cases hop : op.admits d.table[op.name]? with
  | true =>
      rw [attempt_of_admits hop]
      exact hstore hop
  | false =>
      rw [attempt_of_not_admits hop]
      exact h

/-- What is so of the empty dictionary, and is kept by every operation, is so after any
    operations. -/
theorem after_induction {P : Dictionary → List Operation → Prop} (hempty : P empty [])
    (hattempt : ∀ d log op, P d log → P (attempt (d, log) op).1 (attempt (d, log) op).2)
    (ops : List Operation) : P (after ops) (accepted ops) :=
  List.foldlRecOn (motive := fun h => P h.1 h.2) ops attempt hempty
    fun h hP op _ => hattempt h.1 h.2 op hP

theorem Coherent.store (h : d.Coherent) (x : String) (b : Binding) : (d.store x b).Coherent := by
  have hbound : ∀ y, y ∈ (d.store x b).table ↔ y = x ∨ y ∈ d.table := by
    intro y
    rw [mem_table_iff, mem_table_iff, table_store]
    by_cases hy : y = x
    · rw [if_pos hy]
      exact iff_of_true ⟨b, rfl⟩ (.inl hy)
    · rw [if_neg hy]
      exact (or_iff_right hy).symm
  -- A name is put into both parts or, when it is in both already, into neither.
  by_cases hx : x ∈ d.table
  · have horder : (d.store x b).order = d.order := by rw [store_of_mem hx]
    refine ⟨horder ▸ h.nodup, fun y => ?_⟩
    rw [horder, h.mem_order, hbound]
    constructor
    · exact .inr
    · rintro (rfl | hy)
      · exact hx
      · exact hy
  · have horder : (d.store x b).order = d.order ++ [x] := by rw [store_of_not_mem hx]
    have hnew : x ∉ d.order := fun hmem => hx ((h.mem_order x).1 hmem)
    refine ⟨?_, fun y => ?_⟩
    · rw [horder, ← List.concat_eq_append]
      exact List.Nodup.concat hnew h.nodup
    · rw [horder, List.mem_append, List.mem_singleton, h.mem_order, hbound]
      exact or_comm

/-- The parts of a dictionary agree after an operation if they did before. -/
theorem Coherent.attempt (h : d.Coherent) (log : List Operation) (op : Operation) :
    (attempt (d, log) op).1.Coherent :=
  of_attempt h (fun _ => h.store op.name op.binding) log

theorem lastWritten_concat (log : List Operation) (op : Operation) (x : String) :
    lastWritten (log ++ [op]) x = if x = op.name then some op.binding else lastWritten log x := by
  rw [lastWritten, List.reverse_append, List.reverse_singleton, List.singleton_append,
    List.find?_cons]
  by_cases hx : x = op.name
  · rw [if_pos hx, decide_eq_true hx.symm]
    rfl
  · rw [if_neg hx, decide_eq_false (Ne.symm hx)]
    rfl

theorem declared_concat_of_mem (h : op.name ∈ declared log) :
    declared (log ++ [op]) = declared log := by
  have hmem := List.mem_eraseDups.1 h
  rw [declared, List.filter_append, List.map_append, List.eraseDups_append, ← declared]
  cases hop : op.declares <;> simp [List.removeAll, hop, hmem]

theorem declared_concat_of_not_mem (hop : op.declares = true) (h : op.name ∉ declared log) :
    declared (log ++ [op]) = declared log ++ [op.name] := by
  have hmem := mt List.mem_eraseDups.2 h
  rw [declared, List.filter_append, List.map_append, List.eraseDups_append, ← declared]
  simp [List.removeAll, hop, hmem, List.eraseDups_cons]

/-- After an operation a dictionary is still what the operations that succeeded have made of
    it. -/
theorem Records.attempt (h : d.Records log) (hd : d.Coherent) (op : Operation) :
    (attempt (d, log) op).1.Records (attempt (d, log) op).2 := by
  cases hop : op.admits d.table[op.name]? with
  | false =>
      rw [attempt_of_not_admits hop]
      exact h
  | true =>
      rw [attempt_of_admits hop]
      refine ⟨?_, fun x => ?_⟩
      · by_cases hx : op.name ∈ d.table
        · have hold : op.name ∈ declared log := h.order ▸ (hd.mem_order _).2 hx
          rw [store_of_mem hx, declared_concat_of_mem hold]
          exact h.order
        · have hnew : op.name ∉ declared log := fun hmem =>
            hx ((hd.mem_order _).1 (h.order ▸ hmem))
          -- An assignment is not admitted here, so this is the first declaration of the name.
          rw [not_mem_table_iff.1 hx] at hop
          rw [store_of_not_mem hx,
            declared_concat_of_not_mem (Operation.declares_of_admits hop) hnew, h.order]
      · rw [table_store, lastWritten_concat, h.table]

/-- The scope and the dictionary admit the same operations. -/
theorem Represents.admits_eq (h : d.Represents s) (op : Operation) :
    op.admits (s.find? op.name) = op.admits d.table[op.name]? := by
  rw [h.find]

/-- An operation that is admitted succeeds on a scope and on the dictionary that holds its
    bindings, and the results are alike. -/
theorem Represents.of_admits (h : d.Represents s) (hop : op.admits d.table[op.name]? = true) :
    ∃ t, op.onScope s = .ok t ∧ (d.store op.name op.binding).Represents t := by
  rcases Operation.onScope_of_admits ((h.admits_eq op).trans hop) with ⟨t, ht, hfind, hnames⟩
  refine ⟨t, ht, ?_, fun y => ?_⟩
  · rw [hnames, h.find, h.names, store]
    simp only [Std.HashMap.mem_iff_isSome_getElem?]
  · rw [hfind, table_store, h.find]

/-- An operation fails on a scope for the same reason as on the dictionary that holds its
    bindings. -/
theorem Represents.onScope_eq_error_iff (h : d.Represents s) (op : Operation) (e : ScopeError) :
    op.onScope s = .error e ↔ ∃ d', op.run d = .error e d' := by
  rw [op.run_eq]
  cases hop : op.admits d.table[op.name]? with
  | true =>
      rcases h.of_admits hop with ⟨t, ht, _⟩
      rw [ht, if_pos rfl]
      constructor
      · intro hok
        cases hok
      · rintro ⟨d', hok⟩
        cases hok
  | false =>
      rw [Operation.onScope_of_not_admits ((h.admits_eq op).trans hop), if_neg Bool.false_ne_true]
      constructor
      · intro herror
        cases herror
        exact ⟨d, rfl⟩
      · rintro ⟨d', herror⟩
        cases herror
        rfl

/-- A scope and the dictionary that holds its bindings are alike after an operation. -/
theorem Represents.attempt (h : d.Represents s) (log : List Operation) (op : Operation) :
    (attempt (d, log) op).1.Represents ((op.onScope s).toOption.getD s) := by
  cases hop : op.admits d.table[op.name]? with
  | true =>
      rcases h.of_admits hop with ⟨t, ht, hrep⟩
      rw [attempt_of_admits hop, ht]
      exact hrep
  | false =>
      rw [attempt_of_not_admits hop,
        Operation.onScope_of_not_admits ((h.admits_eq op).trans hop)]
      exact h

end Attempts

section Views

variable {d : Dictionary} {s : Scope} {x : String}

/-- The names in the table are as many as those that are listed. -/
theorem Coherent.size_eq (h : d.Coherent) : d.size = d.order.length := by
  have hperm : d.table.keys.Perm d.order := by
    rw [List.perm_ext_iff_of_nodup Std.HashMap.nodup_keys h.nodup]
    intro x
    rw [Std.HashMap.mem_keys, h.mem_order]
  rw [size, ← Std.HashMap.length_keys, hperm.length_eq]

theorem Coherent.mem_cells_iff (h : d.Coherent) {v : Value} :
    (x, v) ∈ d.cells ↔ d.table[x]? = some (.cell v) := by
  rw [cells, List.mem_filterMap]
  constructor
  · rintro ⟨y, _, hy⟩
    split at hy
    next w hw =>
        cases hy
        exact hw
    next => cases hy
  · intro hx
    refine ⟨x, (h.mem_order x).2 (mem_table_iff.2 ⟨_, hx⟩), ?_⟩
    rw [hx]

/-- The variables are listed in the order of the names. -/
theorem map_fst_cells_sublist (d : Dictionary) : (d.cells.map Prod.fst).Sublist d.order := by
  rw [cells]
  induction d.order with
  | nil => exact List.Sublist.refl _
  | cons y ys ih =>
      rw [List.filterMap_cons]
      split
      next => exact ih.cons y
      next e he =>
          -- A variable is listed under its own name.
          split at he
          next v hv =>
              cases he
              exact ih.cons_cons y
          next => cases he

theorem Represents.size_eq (h : d.Represents s) (hd : d.Coherent) : s.size = d.size := by
  rw [hd.size_eq, ← h.names, Scope.size, Scope.names, List.length_map]

/-- A scope and the dictionary that holds its bindings have the same variables. -/
theorem Represents.cells_eq (h : d.Represents s) (hd : d.Coherent) : s.cells = d.cells := by
  have hnodup : s.names.Nodup := h.names ▸ hd.nodup
  rw [cells, ← h.names, Scope.names, List.filterMap_map, Scope.cells]
  refine List.filterMap_congr ?_
  rintro ⟨x, b⟩ hmem
  rw [Function.comp_apply, ← h.find, Scope.find?_of_mem_entries hnodup hmem]
  cases b <;> rfl

end Views

section Later

variable {d : Dictionary} {x : String}

/-- Once bound to a function, a name stays bound to it. -/
theorem table_attempt_of_function {f : Function} (h : d.table[x]? = some (.function f))
    (log : List Operation) (op : Operation) :
    (attempt (d, log) op).1.table[x]? = some (.function f) := by
  refine of_attempt (P := fun e => e.table[x]? = some (.function f)) h ?_ log
  intro hop
  have hx : x ≠ op.name := by
    rintro rfl
    rw [h, Operation.admits_function] at hop
    cases hop
  rw [table_store, if_neg hx]
  exact h

/-- Once bound to a variable, a name stays a variable. -/
theorem table_attempt_of_cell {v : Value} (h : d.table[x]? = some (.cell v))
    (log : List Operation) (op : Operation) :
    ∃ w, (attempt (d, log) op).1.table[x]? = some (.cell w) := by
  refine of_attempt (P := fun e => ∃ w, e.table[x]? = some (.cell w)) ⟨v, h⟩ ?_ log
  intro hop
  rw [table_store]
  by_cases hx : x = op.name
  · rw [← hx, h] at hop
    rcases Operation.exists_binding_of_admits hop with ⟨w, hw⟩
    rw [if_pos hx, hw]
    exact ⟨w, rfl⟩
  · rw [if_neg hx]
    exact ⟨v, h⟩

/-- What every operation keeps is kept by any operations after others. -/
theorem after_append_induction {P : Dictionary → Prop} {ops : List Operation}
    (hafter : P (after ops)) (hattempt : ∀ d log op, P d → P (attempt (d, log) op).1)
    (more : List Operation) : P (after (ops ++ more)) := by
  rw [after, List.foldl_append]
  exact List.foldlRecOn (motive := fun h => P h.1) more attempt hafter
    fun h hP op _ => hattempt h.1 h.2 op hP

end Later

/-- What is so after any operations on an empty dictionary, the ones that fail among them. -/
structure Faithful (ops : List Operation) : Prop where
  /-- No name is listed twice, and the names that are listed are those in the table. -/
  coherent : (after ops).Coherent
  size_eq : (after ops).size = (after ops).order.length
  /-- The names are in the order of their first declarations that succeeded, and bound to what
      has been written last. -/
  records : (after ops).Records (accepted ops)
  /-- Every variable is listed once, in this order and with its value. -/
  nodup_cells : ((after ops).cells.map Prod.fst).Nodup
  cells_sublist : ((after ops).cells.map Prod.fst).Sublist (declared (accepted ops))
  mem_cells : ∀ x v, (x, v) ∈ (after ops).cells ↔ lastWritten (accepted ops) x = some (.cell v)
  /-- Functions are never replaced, and variables never become functions. -/
  functions_stay : ∀ (more : List Operation) (x : String) (f : Function),
    (after ops).table[x]? = some (.function f) →
      (after (ops ++ more)).table[x]? = some (.function f)
  variables_stay : ∀ (more : List Operation) (x : String) (v : Value),
    (after ops).table[x]? = some (.cell v) → ∃ w, (after (ops ++ more)).table[x]? = some (.cell w)
  /-- An operation changes the binding of its own name at most, and moves no other name. -/
  table_other : ∀ (op : Operation) (y : String), y ≠ op.name →
    (after (ops ++ [op])).table[y]? = (after ops).table[y]?
  order_other : ∀ op : Operation, (after (ops ++ [op])).order = (after ops).order ∨
    (after (ops ++ [op])).order = (after ops).order ++ [op.name]
  /-- An operation that fails changes nothing. -/
  unchanged : ∀ (op : Operation) (e : ScopeError) (d : Dictionary),
    op.run (after ops) = .error e d → e = op.refusal ∧ d = after ops
  /-- A declaration fails if the name is bound, an allocation if it is bound to a function, and
      an assignment if it is not bound to a variable. -/
  declare_fails : ∀ (x : String) (b : Binding),
    (∃ e d, declare x b (after ops) = .error e d) ↔ x ∈ (after ops).table
  allocate_fails : ∀ x : String, (∃ e d, allocate x (after ops) = .error e d) ↔
    ∃ f, (after ops).table[x]? = some (.function f)
  assign_fails : ∀ (x : String) (v : Value), (∃ e d, assign x v (after ops) = .error e d) ↔
    ¬ ∃ w, (after ops).table[x]? = some (.cell w)
  /-- A scope has the same bindings in the same order, and fails for the same reasons. -/
  represents : (after ops).Represents (scopeAfter ops)
  scope_size : (scopeAfter ops).size = (after ops).size
  scope_cells : (scopeAfter ops).cells = (after ops).cells
  scope_fails : ∀ (op : Operation) (e : ScopeError), op.onScope (scopeAfter ops) = .error e ↔
    ∃ d, op.run (after ops) = .error e d

section Runs

variable {ops : List Operation}

theorem after_concat (ops : List Operation) (op : Operation) :
    after (ops ++ [op]) = (attempt (after ops, accepted ops) op).1 := by
  rw [after, List.foldl_append]
  rfl

theorem coherent_after (ops : List Operation) : (after ops).Coherent :=
  after_induction (P := fun d _ => d.Coherent)
    ⟨List.nodup_nil, fun _ => iff_of_false List.not_mem_nil Std.HashMap.not_mem_empty⟩
    (fun _ log op h => h.attempt log op) ops

theorem records_after (ops : List Operation) : (after ops).Records (accepted ops) := by
  have hboth : (after ops).Coherent ∧ (after ops).Records (accepted ops) :=
    after_induction (P := fun d log => d.Coherent ∧ d.Records log)
      ⟨coherent_after [], rfl, fun x => Std.HashMap.getElem?_empty⟩
      (fun _ log op h => ⟨h.1.attempt log op, h.2.attempt h.1 op⟩) ops
  exact hboth.2

theorem represents_after (ops : List Operation) : (after ops).Represents (scopeAfter ops) := by
  induction ops using List.reverseRecOn with
  | nil => exact ⟨rfl, fun x => Std.HashMap.getElem?_empty.symm⟩
  | append_singleton ops op ih =>
      rw [after_concat, scopeAfter, List.foldl_append]
      exact ih.attempt (accepted ops) op

theorem table_concat_of_ne {op : Operation} {y : String} (hy : y ≠ op.name) :
    (after (ops ++ [op])).table[y]? = (after ops).table[y]? := by
  rw [after_concat]
  refine of_attempt (P := fun e => e.table[y]? = (after ops).table[y]?) rfl ?_ (accepted ops)
  intro _
  rw [table_store, if_neg hy]

theorem order_concat (op : Operation) :
    (after (ops ++ [op])).order = (after ops).order ∨
      (after (ops ++ [op])).order = (after ops).order ++ [op.name] := by
  rw [after_concat]
  refine of_attempt (P := fun e => e.order = (after ops).order ∨
    e.order = (after ops).order ++ [op.name]) (.inl rfl) ?_ (accepted ops)
  intro _
  by_cases hx : op.name ∈ (after ops).table
  · exact .inl (if_pos hx)
  · exact .inr (if_neg hx)

end Runs

/-- The two parts of a dictionary never drift apart. Whatever is declared, allocated and assigned
    in an empty dictionary, and whichever of these operations fail, the names are listed once each
    and are those of the table; they are in the order of their first declarations, and bound to
    what has been written last. Functions stay what they are, and variables stay variables. An
    operation fails for the reasons given and then changes nothing, and otherwise it changes the
    binding of its own name at most. A scope does the same with its one list. -/
theorem faithful_after (ops : List Operation) : Faithful ops where
  coherent := coherent_after ops
  size_eq := (coherent_after ops).size_eq
  records := records_after ops
  nodup_cells := (coherent_after ops).nodup.sublist (map_fst_cells_sublist _)
  cells_sublist := (records_after ops).order ▸ map_fst_cells_sublist _
  mem_cells x v := by rw [(coherent_after ops).mem_cells_iff, (records_after ops).table]
  functions_stay more x f h :=
    after_append_induction (P := fun d => d.table[x]? = some (.function f)) h
      (fun _ log op h => table_attempt_of_function h log op) more
  variables_stay more x v h :=
    after_append_induction (P := fun d => ∃ w, d.table[x]? = some (.cell w)) ⟨v, h⟩
      (fun _ log op ⟨_, h⟩ => table_attempt_of_cell h log op) more
  table_other _ _ hy := table_concat_of_ne hy
  order_other op := order_concat op
  unchanged _ _ _ h := Operation.eq_of_run_error h
  declare_fails := declare_fails_iff
  allocate_fails := allocate_fails_iff
  assign_fails := assign_fails_iff
  represents := represents_after ops
  scope_size := (represents_after ops).size_eq (coherent_after ops)
  scope_cells := (represents_after ops).cells_eq (coherent_after ops)
  scope_fails := (represents_after ops).onScope_eq_error_iff

end Dictionary

end StackLang
