import ExprMachine.Scope.Forest

/-!
# What a name means

The forest of scopes is changed in place, and one binding can be seen from many scopes. What a name
ought to mean is said here without the forest, by what was done to the scopes so far: which scope
each one was put inside, and what each name was last bound to in each scope itself. A name then has
the value of the nearest scope on the way outwards that binds it.

* The forest keeps exactly that (`forest_outer?`, `forest_bound?`), by induction on the history.
* Looking a name up goes the way outwards (`get_eq_some_iff`), by induction on the number of the
  scope, as a scope is put inside an older one.
* A new binding is met from the scopes that see the scope it lands in, and from no others. Those are
  the ones with no binding of the name on the way, so the new value is found exactly where it is not
  shadowed.
-/

namespace ExprMachine

/-- `History n`: what was done to scopes until there were `n` of them. They are numbered in the
order in which they were made, and only a scope that was made can be put around another or bound
in. -/
inductive History : Nat → Type
  | start : History 0
  | root {n : Nat} (before : History n) : History (n + 1)
  | inside {n : Nat} (before : History n) (outer : Fin n) : History (n + 1)
  | set {n : Nat} (before : History n) (scope : Fin n) (name : String) (value : Value) : History n

/-! ## Scopes of a forest -/

namespace Forest

variable {forest : Forest} {id : ScopeId} {name : String}

/-- The scope around a scope. -/
def outer? (forest : Forest) (id : ScopeId) : Option ScopeId := forest.scopes[id]?.bind Scope.outer

/-- What a scope itself binds a name to. -/
def bound? (forest : Forest) (id : ScopeId) (name : String) : Option Value :=
  forest.scopes[id]?.bind fun scope => Dictionary.find? name scope.bindings

/-- A name means what the scope itself binds it to, or else what it means in the scope around. -/
theorem get_eq (forest : Forest) (id : ScopeId) (name : String) :
    forest.get id name =
      (forest.bound? id name).or ((forest.outer? id).bind (forest.get · name)) := by
  rw [get, bound?, outer?]
  by_cases hid : id < forest.scopes.size
  · rw [dif_pos hid, Array.getElem?_eq_getElem hid, Option.bind_some, Option.bind_some]
    rcases Dictionary.find? name forest.scopes[id].bindings with _ | value
    · dsimp only
      split
      · next outer houter => rw [houter]; rfl
      · next houter => rw [houter]; rfl
    · rfl
  · rw [dif_neg hid, Array.getElem?_eq_none (Nat.le_of_not_lt hid)]
    rfl

/-- An outermost scope is new: it has none around it. -/
theorem outer?_newRoot (forest : Forest) (id : ScopeId) :
    forest.newRoot.1.outer? id = forest.outer? id := by
  rw [outer?, newRoot, Array.getElem?_push, outer?]
  split
  · next hid => rw [hid, Array.getElem?_size]; rfl
  · rfl

theorem bound?_newRoot (forest : Forest) (id : ScopeId) (name : String) :
    forest.newRoot.1.bound? id name = forest.bound? id name := by
  -- the new scope binds nothing, and neither did its number before there was one
  rw [bound?, newRoot, Array.getElem?_push, bound?]
  split
  · next hid => rw [hid, Array.getElem?_size]; rfl
  · rfl

section Existing

variable {scope : ScopeId} (h : scope < forest.scopes.size)
include h

theorem outer?_newInside (id : ScopeId) :
    (forest.newInside scope).1.outer? id =
      if id = forest.scopes.size then some scope else forest.outer? id := by
  rw [outer?, newInside, dif_pos h, Array.getElem?_push, outer?]
  split
  · rfl
  · rfl

theorem bound?_newInside (id : ScopeId) (name : String) :
    (forest.newInside scope).1.bound? id name = forest.bound? id name := by
  rw [bound?, newInside, dif_pos h, Array.getElem?_push, bound?]
  split
  · next hid => rw [hid, Array.getElem?_size]; rfl
  · rfl

theorem outer?_set (name : String) (value : Value) (id : ScopeId) :
    (forest.set scope name value).outer? id = forest.outer? id := by
  rw [outer?, set, dif_pos h, Array.getElem?_set, outer?]
  split
  · next hid => rw [← hid, Array.getElem?_eq_getElem h]; rfl
  · rfl

theorem bound?_set (bound : String) (value : Value) (id : ScopeId) (name : String) :
    (forest.set scope bound value).bound? id name =
      if id = scope ∧ name = bound then some value else forest.bound? id name := by
  rw [bound?, set, dif_pos h, Array.getElem?_set, bound?]
  by_cases hid : scope = id
  · subst hid
    rw [if_pos rfl, Array.getElem?_eq_getElem h, Option.bind_some, Option.bind_some]
    by_cases hname : name = bound
    · rw [hname, if_pos ⟨rfl, rfl⟩]
      exact Dictionary.find?_insert_self ..
    · rw [if_neg fun hboth => hname hboth.2]
      exact Dictionary.find?_insert_of_ne hname ..
  · rw [if_neg hid, if_neg fun hboth => hid hboth.1.symm]

end Existing

end Forest

namespace History

variable {n : Nat}

/-- The forest that the history leaves. -/
def forest : {n : Nat} → History n → Forest
  | _, start => .empty
  | _, root before => before.forest.newRoot.1
  | _, inside before outer => (before.forest.newInside outer).1
  | _, set before scope name value => before.forest.set scope name value

/-- The scope that a scope was put inside. -/
def outer? : {n : Nat} → History n → ScopeId → Option ScopeId
  | _, start, _ => none
  | _, root before, id => before.outer? id
  | _, inside (n := n) before outer, id => if id = n then some outer else before.outer? id
  | _, set before .., id => before.outer? id

/-- What a name was last bound to in a scope itself. -/
def latest? : {n : Nat} → History n → ScopeId → String → Option Value
  | _, start, _, _ => none
  | _, root before, id, name => before.latest? id name
  | _, inside before _, id, name => before.latest? id name
  | _, set before scope bound value, id, name =>
    if id = scope ∧ name = bound then some value else before.latest? id name

/-- `Outward history id between last`: the way outwards from `id` comes to `last`, and `between` are
the scopes on it from `id` up to `last`, but without `last`. -/
inductive Outward (history : History n) : ScopeId → List ScopeId → ScopeId → Prop
  | here (id : ScopeId) : Outward history id [] id
  | further {id outer last : ScopeId} {between : List ScopeId}
      (houter : history.outer? id = some outer) (hway : Outward history outer between last) :
      Outward history id (id :: between) last

/-- On the way outwards from `id` to `last`, no scope in front of `last` binds the name. -/
def Sees (history : History n) (name : String) (id last : ScopeId) : Prop :=
  ∃ between, history.Outward id between last ∧ ∀ s ∈ between, history.latest? s name = none

/-! ## The forest keeps the history -/

theorem size_forest (history : History n) : history.forest.scopes.size = n := by
  induction history with
  | start => rfl
  | root before ih => exact (Array.size_push _).trans (congrArg (· + 1) ih)
  | inside before outer ih =>
      rw [forest, Forest.newInside, dif_pos (Nat.lt_of_lt_of_eq outer.isLt ih.symm)]
      exact (Array.size_push _).trans (congrArg (· + 1) ih)
  | set before scope name value ih =>
      have hlt : scope < before.forest.scopes.size := Nat.lt_of_lt_of_eq scope.isLt ih.symm
      rw [forest, Forest.set, dif_pos hlt]
      exact (Array.size_set hlt).trans ih

theorem lt_size_forest (history : History n) (scope : Fin n) :
    scope < history.forest.scopes.size :=
  Nat.lt_of_lt_of_eq scope.isLt history.size_forest.symm

/-- The number of a new outermost scope is the next one. -/
theorem newRoot_forest (history : History n) : history.forest.newRoot = (history.root.forest, n) :=
  Prod.ext rfl history.size_forest

/-- The number of a new scope inside another is the next one. -/
theorem newInside_forest (history : History n) (outer : Fin n) :
    history.forest.newInside outer = ((history.inside outer).forest, n) := by
  refine Prod.ext rfl ?_
  rw [Forest.newInside, dif_pos (history.lt_size_forest outer)]
  exact history.size_forest

theorem forest_outer? (history : History n) (id : ScopeId) :
    history.forest.outer? id = history.outer? id := by
  induction history with
  | start => rfl
  | root before ih => exact (Forest.outer?_newRoot before.forest id).trans ih
  | inside before outer ih =>
      rw [forest, Forest.outer?_newInside (before.lt_size_forest outer), before.size_forest, ih]
      rfl
  | set before scope name value ih =>
      exact (Forest.outer?_set (before.lt_size_forest scope) name value id).trans ih

theorem forest_bound? (history : History n) (id : ScopeId) (name : String) :
    history.forest.bound? id name = history.latest? id name := by
  induction history with
  | start => rfl
  | root before ih => exact (Forest.bound?_newRoot before.forest id name).trans ih
  | inside before outer ih =>
      exact (Forest.bound?_newInside (before.lt_size_forest outer) id name).trans ih
  | set before scope bound value ih =>
      rw [forest, Forest.bound?_set (before.lt_size_forest scope), ih]
      rfl

/-- A name means what it was last bound to in the scope itself, or else what it means in the scope
around. -/
theorem get_forest (history : History n) (id : ScopeId) (name : String) :
    history.forest.get id name =
      (history.latest? id name).or ((history.outer? id).bind (history.forest.get · name)) := by
  rw [Forest.get_eq, history.forest_bound?, history.forest_outer?]

/-! ## The way outwards -/

/-- A scope is put inside an older one. -/
theorem outer?_lt {history : History n} {id outer : ScopeId} (h : history.outer? id = some outer) :
    outer < id := by
  induction history with
  | start => cases h
  | root before ih => exact ih h
  | @inside n before around ih =>
      rw [outer?] at h
      split at h
      · next hid =>
        obtain rfl : (around : ScopeId) = outer := Option.some.inj h
        exact hid ▸ around.isLt
      · exact ih h
  | set before scope name value ih => exact ih h

variable {history : History n} {id last scope : ScopeId} {between : List ScopeId} {name : String}

/-- The scopes on the way become older and older, so it never comes back. -/
theorem Outward.lt (h : history.Outward id between last) : ∀ s ∈ between, last < s := by
  induction h with
  | here id => exact fun _ hs => absurd hs List.not_mem_nil
  | @further id outer last between houter hway ih =>
      refine List.forall_mem_cons.mpr ⟨?_, ih⟩
      cases hway with
      | here => exact outer?_lt houter
      | further => exact Nat.lt_trans (ih _ List.mem_cons_self) (outer?_lt houter)

/-- Every way outwards ends. -/
theorem exists_outermost (history : History n) (id : ScopeId) :
    ∃ between last, history.Outward id between last ∧ history.outer? last = none := by
  -- on the number of the scope, which is smaller for the scope around it
  induction id using Nat.strongRecOn with
  | ind id ih =>
    rcases houter : history.outer? id with _ | outer
    · exact ⟨[], id, .here id, houter⟩
    · obtain ⟨between, last, hway, hlast⟩ := ih outer (outer?_lt houter)
      exact ⟨id :: between, last, .further houter hway, hlast⟩

theorem sees_self (history : History n) (name : String) (id : ScopeId) : history.Sees name id id :=
  ⟨[], .here id, fun _ hs => absurd hs List.not_mem_nil⟩

/-- What the scope around sees is seen from the scope, unless it binds the name itself. -/
theorem Sees.further {outer : ScopeId} (houter : history.outer? id = some outer)
    (hfree : history.latest? id name = none) (h : history.Sees name outer last) :
    history.Sees name id last := by
  obtain ⟨between, hway, hnone⟩ := h
  exact ⟨id :: between, .further houter hway, List.forall_mem_cons.mpr ⟨hfree, hnone⟩⟩

/-- A name means the same in two scopes if one sees the other. -/
theorem Sees.get_eq (h : history.Sees name id last) :
    history.forest.get id name = history.forest.get last name := by
  obtain ⟨between, hway, hnone⟩ := h
  induction hway with
  | here id => rfl
  | further houter _ ih =>
      obtain ⟨hfree, hnone⟩ := List.forall_mem_cons.mp hnone
      rw [get_forest, hfree, houter]
      exact ih hnone

/-! ## Looking a name up -/

/-- **A name means** what it was last bound to in the nearest scope outwards that binds it. -/
theorem get_eq_some_iff {value : Value} :
    history.forest.get id name = some value ↔
      ∃ last, history.Sees name id last ∧ history.latest? last name = some value := by
  constructor
  · intro h
    induction id using Nat.strongRecOn with
    | ind id ih =>
      rw [get_forest] at h
      rcases hfree : history.latest? id name with _ | bound
      · rw [hfree, Option.none_or] at h
        obtain ⟨outer, houter, hmeans⟩ := Option.bind_eq_some_iff.mp h
        obtain ⟨last, hsees, hlast⟩ := ih outer (outer?_lt houter) hmeans
        exact ⟨last, hsees.further houter hfree, hlast⟩
      · rw [hfree, Option.some_or] at h
        exact ⟨id, history.sees_self name id, hfree.trans h⟩
  · rintro ⟨last, hsees, hlast⟩
    rw [hsees.get_eq, get_forest, hlast, Option.some_or]

/-- **A name means nothing** if no scope outwards binds it. -/
theorem get_eq_none_iff :
    history.forest.get id name = none ↔
      ∀ between last, history.Outward id between last → history.latest? last name = none := by
  constructor
  · intro h between last hway
    induction hway with
    | here id =>
        rw [get_forest] at h
        exact (Option.or_eq_none_iff.mp h).1
    | further houter _ ih =>
        rw [get_forest, houter] at h
        exact ih (Option.or_eq_none_iff.mp h).2
  · intro h
    rw [Option.eq_none_iff_forall_ne_some]
    intro value hvalue
    obtain ⟨last, ⟨between, hway, -⟩, hlast⟩ := get_eq_some_iff.mp hvalue
    rw [h between last hway] at hlast
    cases hlast

/-! ## Binding a name -/

section Set

variable {scope : Fin n} {bound : String} {value : Value}

/-- The way outwards stays the same. -/
theorem Outward.set (h : history.Outward id between last) :
    (history.set scope bound value).Outward id between last := by
  induction h with
  | here id => exact .here id
  | further houter _ ih => exact .further houter ih

/-- The scopes that see the one that is bound in find the new value. -/
theorem get_set_of_sees (h : history.Sees bound id scope) :
    (history.set scope bound value).forest.get id bound = some value := by
  obtain ⟨between, hway, hnone⟩ := h
  refine get_eq_some_iff.mpr ⟨scope, ⟨between, hway.set, fun s hs => ?_⟩, if_pos ⟨rfl, rfl⟩⟩
  -- the scopes in front are younger, so none of them is the one that is bound in
  have hother : ¬(s = scope ∧ bound = bound) := fun hsame => Nat.ne_of_gt (hway.lt s hs) hsame.1
  exact (if_neg hother).trans (hnone s hs)

/-- All other names, and that name in all other scopes, keep their meaning. -/
theorem get_set_of_not_sees (h : ¬(name = bound ∧ history.Sees bound id scope)) :
    (history.set scope bound value).forest.get id name = history.forest.get id name := by
  induction id using Nat.strongRecOn with
  | ind id ih =>
    have hother : ¬(id = scope ∧ name = bound) := by
      rintro ⟨rfl, rfl⟩
      exact h ⟨rfl, history.sees_self name _⟩
    have hlatest : (history.set scope bound value).latest? id name = history.latest? id name :=
      if_neg hother
    have houters : (history.set scope bound value).outer? id = history.outer? id := rfl
    rw [get_forest, get_forest history, hlatest, houters]
    rcases hfree : history.latest? id name with _ | old
    · rcases houter : history.outer? id with _ | outer
      · rfl
      · -- the scope does not bind the name, so if the one around it saw the binding it would too
        refine ih outer (outer?_lt houter) ?_
        rintro ⟨rfl, hsees⟩
        exact h ⟨rfl, hsees.further houter hfree⟩
    · rfl

end Set

/--
**Lookup and isolation.**

A new scope has the next number. After any history, the way outwards from a scope ends. A name has
the value that it was last bound to in the nearest scope on that way that binds it, and no value
exactly if no scope on the way binds it. A new binding is what the name means in the scope that it
lands in and in the scopes inside that have no binding of the name in between; every other meaning
stays.
-/
theorem get_nearest (history : History n) (id : ScopeId) (name : String) :
    history.forest.newRoot = (history.root.forest, n) ∧
    (∀ outer : Fin n, history.forest.newInside outer = ((history.inside outer).forest, n)) ∧
    (∃ between last, history.Outward id between last ∧ history.outer? last = none) ∧
    (∀ value, history.forest.get id name = some value ↔
      ∃ last, history.Sees name id last ∧ history.latest? last name = some value) ∧
    (history.forest.get id name = none ↔
      ∀ between last, history.Outward id between last → history.latest? last name = none) ∧
    ∀ (scope : Fin n) (bound : String) (value : Value),
      (name = bound ∧ history.Sees bound id scope →
        (history.set scope bound value).forest.get id name = some value) ∧
      (¬(name = bound ∧ history.Sees bound id scope) →
        (history.set scope bound value).forest.get id name = history.forest.get id name) := by
  refine ⟨history.newRoot_forest, history.newInside_forest, history.exists_outermost id,
    fun _ => get_eq_some_iff, get_eq_none_iff, fun _ _ _ => ⟨?_, get_set_of_not_sees⟩⟩
  rintro ⟨rfl, hsees⟩
  exact get_set_of_sees hsees

end History

end ExprMachine
