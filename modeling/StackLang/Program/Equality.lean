import StackLang.Program

/-!
# Equality of programs

Two programs are equal when they are the same tree, locations included.
Statements nest through lists, so the comparison is a pair of functions, one for
a statement and one for a block, and each is shown to decide equality.

## Main definitions

* `Stmt.same`: Whether two statements are the same tree.
* `Stmt.sameAll`: Whether two blocks are the same list of trees.

## Theorems

* `Stmt.same_iff`: The comparison of statements decides their equality.
* `Stmt.sameAll_iff`: The comparison of blocks decides their equality.
-/

namespace StackLang

namespace Stmt

mutual

/-- Whether two statements are the same tree. -/
def same : Stmt → Stmt → Bool
  | .literal v l, .literal w m => v = w ∧ l = m
  | .operator o l, .operator p m => o = p ∧ l = m
  | .declare x l, .declare y m => x = y ∧ l = m
  | .read x l, .read y m => x = y ∧ l = m
  | .assign x l, .assign y m => x = y ∧ l = m
  | .ifThen b l, .ifThen c m => sameAll b c && l = m
  | .ifElse b d l, .ifElse c e m => sameAll b c && sameAll d e && l = m
  | .loop b d l, .loop c e m => sameAll b c && sameAll d e && l = m
  | .function s b, .function t c => s = t && sameAll b c
  | .call x l, .call y m => x = y ∧ l = m
  | .print l, .print m => l = m
  | _, _ => false

/-- Whether two blocks are the same list of trees. -/
def sameAll : List Stmt → List Stmt → Bool
  | [], [] => true
  | s :: ss, t :: ts => same s t && sameAll ss ts
  | _, _ => false

end

mutual

theorem same_iff (s t : Stmt) : same s t = true ↔ s = t := by
  cases s <;> cases t <;> simp [same, sameAll_iff, and_assoc]

theorem sameAll_iff (ss ts : List Stmt) : sameAll ss ts = true ↔ ss = ts := by
  cases ss <;> cases ts <;> simp [sameAll, same_iff, sameAll_iff]

end

instance : DecidableEq Stmt := fun s t => decidable_of_iff _ (same_iff s t)

end Stmt

deriving instance DecidableEq for Function

deriving instance DecidableEq for Program

end StackLang
