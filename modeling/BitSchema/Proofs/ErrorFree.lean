import Mathlib
import BitSchema.Diagnostic

/-!
# Checks without errors

Every check reports a list of diagnostics, and only those with a code below 4000 are errors.  A list
is `ErrorFree` if it has none of them.
-/

namespace BitSchema

/-- Errors are told by their codes. -/
theorem isError_eq_true_iff {d : Diagnostic} : d.isError = true ↔ d.problem.code < 4000 := by
  rw [Diagnostic.isError, Diagnostic.severity, Problem.severity]
  split
  next warning =>
    simp only [beq_iff_eq, reduceCtorEq, false_iff]
    omega
  next error => simpa using error

theorem isError_eq_false_iff {d : Diagnostic} : d.isError = false ↔ 4000 ≤ d.problem.code := by
  rw [← Bool.not_eq_true, isError_eq_true_iff, Nat.not_lt]

/-- Nothing worse than a warning was found. -/
def ErrorFree (ds : List Diagnostic) : Prop := ∀ d ∈ ds, d.isError = false

@[simp] theorem errorFree_nil : ErrorFree [] := by simp [ErrorFree]

@[simp] theorem errorFree_append {ds es : List Diagnostic} :
    ErrorFree (ds ++ es) ↔ ErrorFree ds ∧ ErrorFree es := by
  simp [ErrorFree, or_imp, forall_and]

theorem ErrorFree.perm {ds ds' : List Diagnostic} (clean : ErrorFree ds) (same : ds.Perm ds') :
    ErrorFree ds' :=
  fun d mem => clean d (same.mem_iff.mpr mem)

/-- All checks have to be free of errors. -/
theorem errorFree_flatMap {α : Type} {check : α → List Diagnostic} {as : List α} :
    ErrorFree (as.flatMap check) ↔ ∀ a ∈ as, ErrorFree (check a) := by
  simp only [ErrorFree, List.mem_flatMap]
  constructor
  · intro clean a mem d inside
    exact clean d ⟨a, mem, inside⟩
  · rintro clean d ⟨a, mem, inside⟩
    exact clean a mem d inside

theorem errorFree_singleton {d : Diagnostic} : ErrorFree [d] ↔ 4000 ≤ d.problem.code := by
  simp [ErrorFree, isError_eq_false_iff]

/-- A single problem that is an error. -/
theorem not_errorFree_of_code {d : Diagnostic} (clean : ErrorFree [d])
    (error : d.problem.code < 4000) : False :=
  absurd (errorFree_singleton.mp clean) (Nat.not_le.mpr error)

/-- What is wrong with a text has one of the lowest codes. -/
theorem code_badSource (e : Source.ParseError) : (Problem.badSource e).code < 2000 := by
  rw [Problem.code]
  cases e with
  | literal fault => cases fault <;> simp [Source.ParseError.code]
  | _ => simp [Source.ParseError.code]

end BitSchema
