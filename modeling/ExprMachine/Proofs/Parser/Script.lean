import ExprMachine.Parser.Diagnostic

/-!
# Routines that read with a cursor

A parser can be written as routines that share one cursor. A routine looks at the current token and
at the one behind it, moves on by one token, reports, and calls other routines or itself, which go
on from where the cursor is. There is no way back, and past the last token moving on changes
nothing.

What a routine does is a `Script`. A run of it (`Runs`) is finite by definition: whether there is
one has to be shown, and a measure that goes down with every call shows it (`exists_runs`). What the
calls of a routine may rely on and what they provide is a `Contract`; if every routine keeps its
side as long as the others keep theirs, then every run does (`Runs.post`).
-/

namespace ExprMachine.Parser

variable {R : Type} {Node : R → Type} {α β : Type}

/-- What a routine does, where a call of `routine` gives a `Node routine`. -/
inductive Script (Node : R → Type) (α : Type) where
  | done (value : α)
  /-- Looks at the current token and at the next one. -/
  | look (go : Option Token → Option Token → Script Node α)
  /-- Moves on to the next token. -/
  | next (go : Script Node α)
  | report (diagnostic : Diagnostic) (go : Script Node α)
  | call (routine : R) (go : Node routine → Script Node α)

/-- What can be seen of a routine: it moves on from a token, or it reports. -/
inductive Move where
  | pass (token : Token)
  | report (diagnostic : Diagnostic)

namespace Move

/-- The tokens that were passed, in order. -/
def passed : List Move → List Token
  | [] => []
  | pass token :: moves => token :: passed moves
  | report _ :: moves => passed moves

/-- The reports that were made, in order. -/
def reports : List Move → List Diagnostic
  | [] => []
  | pass _ :: moves => reports moves
  | report diagnostic :: moves => diagnostic :: reports moves

theorem passed_append (xs ys : List Move) : passed (xs ++ ys) = passed xs ++ passed ys := by
  induction xs with
  | nil => rfl
  | cons x xs ih => cases x <;> simp [passed, ih]

theorem reports_append (xs ys : List Move) : reports (xs ++ ys) = reports xs ++ reports ys := by
  induction xs with
  | nil => rfl
  | cons x xs ih => cases x <;> simp [reports, ih]

end Move

/-! ## Runs -/

/-- The script is run from `here`, the tokens from the current one on, and ends at `there`. -/
inductive Runs (text : (routine : R) → Script Node (Node routine)) :
    {α : Type} → Script Node α → List Token → List Move → α → List Token → Prop where
  | done {α : Type} {value : α} {here : List Token} : Runs text (.done value) here [] value here
  | look {α : Type} {go : Option Token → Option Token → Script Node α} {here there : List Token}
      {moves : List Move} {value : α} :
      Runs text (go here.head? here.tail.head?) here moves value there →
      Runs text (.look go) here moves value there
  | next {α : Type} {go : Script Node α} {token : Token} {rest there : List Token}
      {moves : List Move} {value : α} :
      Runs text go rest moves value there →
      Runs text (.next go) (token :: rest) (.pass token :: moves) value there
  | stay {α : Type} {go : Script Node α} {there : List Token} {moves : List Move} {value : α} :
      Runs text go [] moves value there → Runs text (.next go) [] moves value there
  | report {α : Type} {diagnostic : Diagnostic} {go : Script Node α} {here there : List Token}
      {moves : List Move} {value : α} :
      Runs text go here moves value there →
      Runs text (.report diagnostic go) here (.report diagnostic :: moves) value there
  | call {α : Type} {routine : R} {go : Node routine → Script Node α}
      {here mid there : List Token} {moves moves' : List Move} {node : Node routine} {value : α} :
      Runs text (text routine) here moves node mid → Runs text (go node) mid moves' value there →
      Runs text (.call routine go) here (moves ++ moves') value there

/-- While the script is run from `here`, a routine is called with the cursor at `entry`: the calls
in front of it have come to an end, with whatever they gave. -/
inductive Calls (text : (routine : R) → Script Node (Node routine)) :
    {α : Type} → Script Node α → List Token → R → List Token → Prop where
  | made {α : Type} {routine : R} {go : Node routine → Script Node α} {here : List Token} :
      Calls text (.call routine go) here routine here
  | after {α : Type} {routine callee : R} {go : Node routine → Script Node α}
      {here mid entry : List Token} {moves : List Move} {node : Node routine} :
      Runs text (text routine) here moves node mid → Calls text (go node) mid callee entry →
      Calls text (.call routine go) here callee entry
  | look {α : Type} {callee : R} {go : Option Token → Option Token → Script Node α}
      {here entry : List Token} :
      Calls text (go here.head? here.tail.head?) here callee entry →
      Calls text (.look go) here callee entry
  | next {α : Type} {callee : R} {go : Script Node α} {here entry : List Token} :
      Calls text go here.tail callee entry → Calls text (.next go) here callee entry
  | report {α : Type} {callee : R} {diagnostic : Diagnostic} {go : Script Node α}
      {here entry : List Token} :
      Calls text go here callee entry → Calls text (.report diagnostic go) here callee entry

variable {text : (routine : R) → Script Node (Node routine)}

/-- **The cursor only moves forward**: what has been passed and what is left are the tokens that
there were. -/
theorem Runs.passed_append {s : Script Node α} {here there : List Token} {moves : List Move}
    {value : α} (h : Runs text s here moves value there) :
    Move.passed moves ++ there = here := by
  induction h with
  | done => rfl
  | look _ ih => exact ih
  | next _ ih => exact congrArg _ ih
  | stay _ ih => exact ih
  | report _ ih => exact ih
  | call _ _ ih ih' => rw [Move.passed_append, List.append_assoc, ih', ih]

theorem Runs.length_le {s : Script Node α} {here there : List Token} {moves : List Move} {value : α}
    (h : Runs text s here moves value there) : there.length ≤ here.length := by
  rw [← h.passed_append, List.length_append]
  exact Nat.le_add_left _ _

/-! ## Contracts -/

/-- What holds where a routine is called, and what holds of the node, the cursor and the reports
when it is done. -/
structure Contract (Node : R → Type) where
  pre : R → List Token → Prop
  post : (routine : R) → List Token → Node routine → List Token → List Diagnostic → Prop

/-- From `here` the script calls routines only where they may be called, and ends as `Q` says if
they keep their contracts. -/
def Script.Keeps (contract : Contract Node) :
    Script Node α → List Token → (α → List Token → List Diagnostic → Prop) → Prop
  | .done value, here, Q => Q value here []
  | .look go, here, Q => (go here.head? here.tail.head?).Keeps contract here Q
  | .next go, here, Q => go.Keeps contract here.tail Q
  | .report diagnostic go, here, Q =>
    go.Keeps contract here fun value there ds => Q value there (diagnostic :: ds)
  | .call routine go, here, Q =>
    contract.pre routine here ∧ ∀ node mid ds, mid.length ≤ here.length →
      contract.post routine here node mid ds →
      (go node).Keeps contract mid fun value there es => Q value there (ds ++ es)

namespace Script

variable {contract : Contract Node}

theorem Keeps.mono {s : Script Node α} {here : List Token}
    {P Q : α → List Token → List Diagnostic → Prop} (h : s.Keeps contract here P)
    (hPQ : ∀ value there ds, there.length ≤ here.length → P value there ds → Q value there ds) :
    s.Keeps contract here Q := by
  induction s generalizing here P Q with
  | done value => exact hPQ _ _ _ (Nat.le_refl _) h
  | look go ih => exact ih _ _ h hPQ
  | next go ih =>
      refine ih h fun value there ds hle => hPQ value there ds (Nat.le_trans hle ?_)
      rw [List.length_tail]
      exact Nat.sub_le _ _
  | report diagnostic go ih => exact ih h fun value there ds => hPQ value there _
  | call routine go ih =>
      refine ⟨h.1, fun node mid ds hmid hpost => ?_⟩
      exact ih node (h.2 node mid ds hmid hpost) fun value there es hle =>
        hPQ value there _ (Nat.le_trans hle hmid)

theorem keeps_trivial {s : Script Node α} {here : List Token}
    (hpre : ∀ routine here, contract.pre routine here) :
    s.Keeps contract here fun _ _ _ => True := by
  induction s generalizing here with
  | done value => trivial
  | look go ih => exact ih _ _
  | next go ih => exact ih
  | report diagnostic go ih => exact ih
  | call routine go ih => exact ⟨hpre _ _, fun node mid _ _ _ => ih node⟩

/-- Goes on with what the script gave. -/
def bind : Script Node α → (α → Script Node β) → Script Node β
  | .done value, k => k value
  | .look go, k => .look fun current peek => (go current peek).bind k
  | .next go, k => .next (go.bind k)
  | .report diagnostic go, k => .report diagnostic (go.bind k)
  | .call routine go, k => .call routine fun node => (go node).bind k

theorem keeps_bind {s : Script Node α} {k : α → Script Node β} {here : List Token}
    {Q : β → List Token → List Diagnostic → Prop}
    (h : s.Keeps contract here fun value there ds =>
      (k value).Keeps contract there fun value' there' es => Q value' there' (ds ++ es)) :
    (s.bind k).Keeps contract here Q := by
  induction s generalizing here Q with
  | done value => exact h
  | look go ih => exact ih _ _ h
  | next go ih => exact ih h
  | report diagnostic go ih => exact ih h
  | call routine go ih =>
      refine ⟨h.1, fun node mid ds hmid hpost => ih node ?_⟩
      refine (h.2 node mid ds hmid hpost).mono fun value there es _ hk => ?_
      exact hk.mono fun value' there' fs _ hQ => by rwa [List.append_assoc] at hQ

end Script

variable {contract : Contract Node}

/-- **Contracts that all routines keep are kept by every run.** -/
theorem Runs.post
    (htext : ∀ routine here, (text routine).Keeps contract here (contract.post routine here))
    {s : Script Node α} {here there : List Token} {moves : List Move} {value : α}
    (h : Runs text s here moves value there) {Q : α → List Token → List Diagnostic → Prop}
    (hs : s.Keeps contract here Q) : Q value there (Move.reports moves) := by
  induction h with
  | done => exact hs
  | look _ ih => exact ih hs
  | next _ ih => exact ih hs
  | stay _ ih => exact ih hs
  | report _ ih => exact ih hs
  | @call α routine go here mid there moves moves' node value hcallee _ ih ih' =>
      -- the routine ran on its own script, which keeps its contract
      have hpost : contract.post routine here node mid (Move.reports moves) := ih (htext _ _)
      rw [Move.reports_append]
      exact ih' (hs.2 node mid _ hcallee.length_le hpost)

/-- Routines are called where their contract allows it, if every run provides what they promise. -/
theorem Calls.pre
    (hpost : ∀ routine here moves node mid, Runs text (text routine) here moves node mid →
      contract.post routine here node mid (Move.reports moves))
    {s : Script Node α} {here entry : List Token} {callee : R} (h : Calls text s here callee entry)
    (hs : s.Keeps contract here fun _ _ _ => True) : contract.pre callee entry := by
  induction h with
  | made => exact hs.1
  | after hrun _ ih => exact ih (hs.2 _ _ _ hrun.length_le (hpost _ _ _ _ _ hrun))
  | look _ ih => exact ih hs
  | next _ ih => exact ih hs
  | report _ ih => exact ih hs

/-! ## Termination -/

/-- Calls are allowed with fewer tokens left than `room`, or with as many if the routine called is
of a lower rank than `level`. -/
def Contract.below (rank : R → Nat) (room level : Nat) : Contract Node where
  pre callee entry := entry.length < room ∨ entry.length = room ∧ rank callee < level
  post _ _ _ _ _ := True

/-- With every call the tokens get fewer, or the rank of the routine gets lower. -/
def Descends (text : (routine : R) → Script Node (Node routine)) (rank : R → Nat) : Prop :=
  ∀ routine here, (text routine).Keeps (.below rank here.length (rank routine)) here
    fun _ _ _ => True

variable {rank : R → Nat}

theorem Calls.descends (htext : Descends text rank) {routine callee : R} {here entry : List Token}
    (h : Calls text (text routine) here callee entry) :
    entry.length < here.length ∨ entry.length = here.length ∧ rank callee < rank routine :=
  Calls.pre (fun _ _ _ _ _ _ => trivial) h (htext routine here)

/-- A script comes to an end if the routines do that it calls. -/
theorem exists_runs_of_keeps {room level : Nat}
    (hruns : ∀ callee entry, entry.length < room ∨ entry.length = room ∧ rank callee < level →
      ∃ moves node mid, Runs text (text callee) entry moves node mid)
    {s : Script Node α} {here : List Token}
    (hs : s.Keeps (.below rank room level) here fun _ _ _ => True) :
    ∃ moves value there, Runs text s here moves value there := by
  induction s generalizing here with
  | done value => exact ⟨_, _, _, .done⟩
  | look go ih =>
      obtain ⟨moves, value, there, hrun⟩ := ih _ _ hs
      exact ⟨_, _, _, .look hrun⟩
  | next go ih =>
      obtain ⟨moves, value, there, hrun⟩ := ih hs
      cases here with
      | nil => exact ⟨_, _, _, .stay hrun⟩
      | cons token rest => exact ⟨_, _, _, .next hrun⟩
  | report diagnostic go ih =>
      obtain ⟨moves, value, there, hrun⟩ := ih hs
      exact ⟨_, _, _, .report hrun⟩
  | call routine go ih =>
      obtain ⟨moves, node, mid, hcallee⟩ := hruns routine here hs.1
      obtain ⟨moves', value, there, hrun⟩ :=
        ih node (hs.2 node mid (Move.reports moves) hcallee.length_le trivial)
      exact ⟨_, _, _, .call hcallee hrun⟩

/-- **Routines whose calls descend come to an end**, wherever they are called. -/
theorem exists_runs (htext : Descends text rank) (routine : R) (here : List Token) :
    ∃ moves node there, Runs text (text routine) here moves node there := by
  refine exists_runs_of_keeps (fun callee entry hbelow => ?_) (htext routine here)
  exact exists_runs htext callee entry
termination_by (here.length, rank routine)
decreasing_by
  rcases hbelow with hlt | ⟨heq, hlt⟩
  · exact .left _ _ hlt
  · rw [heq]
    exact .right _ hlt

end ExprMachine.Parser
