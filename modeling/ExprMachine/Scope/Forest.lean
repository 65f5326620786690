import ExprMachine.Text.Layout
import ExprMachine.Text.Quoted
import ExprMachine.Value.Basic

/-!
# Scopes

A scope binds names and may have an outer scope. A name is looked up in the scope itself and then
outwards; a binding always lands in the scope it is made in. The scopes that were made so far are a
forest, numbered in the order they were made, and each outer scope was made before the scopes inside
it. That is why every way outwards ends (`outer_lt`).
-/

namespace ExprMachine

/-- A scope: its own bindings in order of their names, and the scope around it. -/
structure Scope where
  bindings : List (String × Value)
  outer : Option ScopeId

/-- The scopes made so far. -/
structure Forest where
  scopes : Array Scope
  /-- An outer scope is older than the scopes inside it. -/
  outer_lt : ∀ (id : ScopeId) (h : id < scopes.size), ∀ o ∈ scopes[id].outer, o < id

namespace Forest

/-- No scopes. -/
def empty : Forest := ⟨#[], fun _ h => absurd h (Nat.not_lt_zero _)⟩

/-- A new scope around which there is none: the forest and the scope's number. -/
def newRoot (forest : Forest) : Forest × ScopeId :=
  (⟨forest.scopes.push ⟨[], none⟩, by
    intro id h o ho
    rw [Array.getElem_push] at ho
    split at ho
    · exact forest.outer_lt id _ o ho
    · cases ho⟩, forest.scopes.size)

/--
A new scope inside `outer`: the forest and the scope's number. A number that no scope has bounds
nothing, so the new scope is then an outermost one.
-/
def newInside (forest : Forest) (outer : ScopeId) : Forest × ScopeId :=
  if hlt : outer < forest.scopes.size then
    (⟨forest.scopes.push ⟨[], some outer⟩, by
      intro id h o ho
      rw [Array.getElem_push] at ho
      split at ho
      · exact forest.outer_lt id _ o ho
      · next hid =>
        have heq : outer = o := Option.some.inj ho
        exact heq ▸ Nat.lt_of_lt_of_le hlt (Nat.le_of_not_lt hid)⟩, forest.scopes.size)
  else forest.newRoot

/-- What `name` means in scope `id`: the binding of the nearest scope on the way outwards. -/
def get (forest : Forest) (id : ScopeId) (name : String) : Option Value :=
  if h : id < forest.scopes.size then
    match Dictionary.find? name forest.scopes[id].bindings with
    | some value => some value
    | none =>
      match ho : forest.scopes[id].outer with
      | some outer => forest.get outer name
      | none => none
  else none
termination_by id
decreasing_by exact forest.outer_lt id h outer ho

/-- Binds `name` in scope `id`, in place of what the scope itself bound it to. -/
def set (forest : Forest) (id : ScopeId) (name : String) (value : Value) : Forest :=
  if hlt : id < forest.scopes.size then
    let scope := forest.scopes[id]
    ⟨forest.scopes.set id { scope with bindings := Dictionary.insert name value scope.bindings }, by
      intro other h o ho
      rw [Array.size_set] at h
      rw [Array.getElem_set] at ho
      split at ho
      · next heq => subst heq; exact forest.outer_lt id hlt o ho
      · exact forest.outer_lt other h o ho⟩
  else forest

/-- The names a scope binds and whether it is inside another, for debugging. -/
def describe (forest : Forest) (id : ScopeId) : String :=
  match forest.scopes[id]? with
  | none => "Environment \x7b names: [], has_outer: false \x7d"
  | some scope =>
    "Environment \x7b names: ["
      ++ Text.commaSeparated (scope.bindings.map fun binding => Text.quoted binding.1)
      ++ "], has_outer: " ++ toString scope.outer.isSome ++ " \x7d"

end Forest

end ExprMachine
