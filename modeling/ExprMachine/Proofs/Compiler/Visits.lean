import ExprMachine.Proofs.Compiler.Snapshot

/-!
# Where compiling gives up

Compiling goes along the tree in one order and gives up at the first point where something is wrong.
Two things can be: there may be no instructions for a node, and the pool may be full when a number
wants to go there. `Visit` lists the points, a node when it is entered and an operation once more
when both of its operands are done, so that the tree becomes a list, and what is compiled before a
point becomes the list in front of it.

`Follows` says that something was compiled along a list of points: up to the end if there is no
offence, or else up to the first one, with exactly what the points in front of it append. Lists
behind each other are followed one after the other (`follows_append`, `follows_of_failed`), and so
the constructors of the tree are all there is to look at (`follows_compileExpr`,
`follows_compileStmts`).

What all the points of a program append is its postfix form, if they are supported
(`visitsOf_appends`).
-/

namespace ExprMachine

/-- A point that compiling comes to. -/
inductive Visit where
  /-- A statement is entered. -/
  | statement (stmt : Stmt)
  /-- An expression is entered. -/
  | expression (e : Expr)
  /-- The two operands of an operation are compiled. -/
  | operator (op : ArithOp)

/-- The points of an expression. Operands are visited for the arithmetic operators only. -/
def Expr.visits : Expr → List Visit
  | .binary pos (.arith op) left right =>
    .expression (.binary pos (.arith op) left right) ::
      (left.visits ++ right.visits ++ [.operator op])
  | e => [.expression e]

mutual

/-- The points of a statement. -/
def Stmt.visits : Stmt → List Visit
  | .expression start value => .statement (.expression start value) :: value.visits
  | .block body => .statement (.block body) :: body.visits
  | stmt => [.statement stmt]

/-- The points of a block. -/
def Block.visits : Block → List Visit
  | ⟨_, stmts⟩ => visitsOf stmts

/-- The points of statements that follow each other. -/
def visitsOf : List Stmt → List Visit
  | [] => []
  | stmt :: stmts => stmt.visits ++ visitsOf stmts

end

/-- The points of a program. -/
def Program.visits (program : Program) : List Visit := visitsOf program.statements

namespace Visit

/-- What a node without instructions is called, and the hint that is given for it. -/
def unhandled? : Visit → Option (String × String)
  | statement (.expression ..) | statement (.block _) => none
  | statement (.binding ..) =>
    some ("let statement", "only expression statements are supported by the bytecode compiler")
  | statement (.exit ..) =>
    some ("return statement", "only expression statements are supported by the bytecode compiler")
  | expression (.integer ..) | expression (.binary _ (.arith _) ..) => none
  | expression (.binary _ (.compare _) ..) =>
    some ("infix expression",
      "only the arithmetic operators + - * / are supported by the bytecode compiler")
  | expression (.identifier _) =>
    some ("identifier", "variables are not supported by the bytecode compiler")
  | expression (.function ..) =>
    some ("function literal", "functions are not supported by the bytecode compiler")
  | expression (.call ..) =>
    some ("function call", "functions are not supported by the bytecode compiler")
  | expression (.branch ..) =>
    some ("if expression", "control flow is not supported by the bytecode compiler")
  | expression (.loop ..) =>
    some ("for expression", "control flow is not supported by the bytecode compiler")
  | expression (.string ..) => some ("string literal", otherwise)
  | expression (.bool ..) => some ("boolean literal", otherwise)
  | expression (.array ..) => some ("array literal", otherwise)
  | expression (.object ..) => some ("object literal", otherwise)
  | expression (.unary ..) => some ("prefix expression", otherwise)
  | expression (.index ..) => some ("index expression", otherwise)
  | operator _ => none
where
  otherwise := "this may be a language feature not yet supported by the bytecode compiler"

/-- What is wrong at the point when the pool holds so many constants. -/
def offence? (pool : Nat) : Visit → Option CompileError
  | expression (.integer ..) => if 65536 ≤ pool then some .tooManyConstants else none
  | v => v.unhandled?.map fun (kind, hint) => .unhandledNode kind (some hint)

/-- The statement is an expression or a block, the expression a number or an arithmetic
operation. -/
def Supported : Visit → Prop
  | statement (.expression ..) | statement (.block _) => True
  | expression (.integer ..) | expression (.binary _ (.arith _) ..) => True
  | operator _ => True
  | _ => False

/-- What the point appends to the pool. -/
def literals : Visit → List Int64
  | expression (.integer _ _ value) => [value]
  | _ => []

/-- What the point appends to the code when the pool holds so many constants. -/
def code (pool : Nat) : Visit → List Instruction
  | expression (.integer ..) => [.constant pool]
  | operator op => [.arith op]
  | _ => []

/-- What some points append to the pool. -/
def literalsOf (visits : List Visit) : List Int64 := visits.flatMap literals

/-- What some points append to the code when the pool holds so many constants in front of them. -/
def codeOf (pool : Nat) : List Visit → List Instruction
  | [] => []
  | v :: visits => v.code pool ++ codeOf (pool + v.literals.length) visits

/-- There is no offence at any of the points. -/
def Clear (pool : Nat) (visits : List Visit) : Prop :=
  ∀ front v back, visits = front ++ v :: back →
    v.offence? (pool + (literalsOf front).length) = none

variable {pool : Nat} {v : Visit} {visits : List Visit}

theorem literalsOf_cons (v : Visit) (visits : List Visit) :
    literalsOf (v :: visits) = v.literals ++ literalsOf visits := rfl

theorem literalsOf_append (front back : List Visit) :
    literalsOf (front ++ back) = literalsOf front ++ literalsOf back := List.flatMap_append

theorem codeOf_append (pool : Nat) (front back : List Visit) :
    codeOf pool (front ++ back)
      = codeOf pool front ++ codeOf (pool + (literalsOf front).length) back := by
  induction front generalizing pool with
  | nil => rfl
  | cons v front ih =>
      rw [List.cons_append, codeOf, codeOf, ih, literalsOf_cons, List.length_append,
        List.append_assoc, Nat.add_assoc]

/-- The literals are numbered in order. -/
theorem index_codeOf (pool : Nat) (visits : List Visit) :
    (codeOf pool visits).filterMap Instruction.index?
      = List.range' pool (literalsOf visits).length := by
  induction visits generalizing pool with
  | nil => rfl
  | cons v visits ih =>
      have hfirst : (v.code pool).filterMap Instruction.index?
          = List.range' pool v.literals.length := by
        cases v with
        | statement stmt => rfl
        | expression e => cases e <;> rfl
        | operator op => rfl
      rw [codeOf, List.filterMap_append, hfirst, ih, literalsOf_cons, List.length_append,
        List.range'_append_1]

theorem clear_nil (pool : Nat) : Clear pool [] := by
  intro front v back h
  simp at h

theorem clear_cons :
    Clear pool (v :: visits) ↔
      v.offence? pool = none ∧ Clear (pool + v.literals.length) visits := by
  constructor
  · intro h
    refine ⟨h [] v visits rfl, fun front w back heq => ?_⟩
    have hlater := h (v :: front) w back (congrArg (v :: ·) heq)
    rw [literalsOf_cons, List.length_append, ← Nat.add_assoc] at hlater
    exact hlater
  · rintro ⟨hfirst, hlater⟩ front w back heq
    cases front with
    | nil =>
        obtain ⟨rfl, -⟩ := List.cons.inj heq
        exact hfirst
    | cons u front =>
        obtain ⟨rfl, hrest⟩ := List.cons.inj heq
        rw [literalsOf_cons, List.length_append, ← Nat.add_assoc]
        exact hlater front w back hrest

theorem clear_append {front back : List Visit} :
    Clear pool (front ++ back) ↔
      Clear pool front ∧ Clear (pool + (literalsOf front).length) back := by
  induction front generalizing pool with
  | nil => exact (and_iff_right (clear_nil pool)).symm
  | cons v front ih =>
      rw [List.cons_append, clear_cons, clear_cons, ih, and_assoc, literalsOf_cons,
        List.length_append, Nat.add_assoc]

/-- At a point that is supported only the pool can be in the way. -/
theorem offence?_eq_none_iff :
    v.offence? pool = none ↔
      v.Supported ∧ (v.literals ≠ [] → pool + v.literals.length ≤ 65536) := by
  have hliteral : ∀ pos digits value,
      (expression (.integer pos digits value)).offence? pool = none ↔
        pool + 1 ≤ 65536 := by
    intro pos digits value
    rw [offence?]
    split
    · rename_i hfull
      exact iff_of_false nofun (Nat.not_lt_of_le hfull)
    · rename_i hroom
      exact iff_of_true rfl (Nat.lt_of_not_le hroom)
  -- a point without literals does not look at the pool
  have hothers : ∀ {w : Visit}, w.literals = [] → (w.offence? pool = none ↔ w.Supported) →
      (w.offence? pool = none ↔
        w.Supported ∧ (w.literals ≠ [] → pool + w.literals.length ≤ 65536)) := by
    intro w hnone h
    rw [h]
    exact (and_iff_left fun hne => absurd hnone hne).symm
  cases v with
  | statement stmt =>
      refine hothers rfl ?_
      cases stmt with
      | expression start value => exact iff_of_true rfl trivial
      | block body => exact iff_of_true rfl trivial
      | binding pos name value => exact iff_of_false nofun id
      | exit pos value => exact iff_of_false nofun id
  | expression e =>
      cases e with
      | integer pos digits value =>
          rw [hliteral]
          exact ⟨fun h => ⟨trivial, fun _ => h⟩, fun h => h.2 (List.cons_ne_nil _ _)⟩
      | binary pos op left right =>
          refine hothers rfl ?_
          cases op with
          | arith op => exact iff_of_true rfl trivial
          | compare op => exact iff_of_false nofun id
      | _ => exact hothers rfl (iff_of_false nofun id)
  | operator op => exact hothers rfl (iff_of_true rfl trivial)

/-- The error for an expression without instructions names it. -/
theorem offence?_of_other {e : Expr} (hliteral : ∀ pos digits value, e ≠ .integer pos digits value)
    (hoperation : ∀ pos op left right, e ≠ .binary pos (.arith op) left right) :
    (expression e).offence? pool = some (.ofExpr e) := by
  cases e with
  | integer pos digits value => exact absurd rfl (hliteral pos digits value)
  | binary pos op left right =>
      cases op with
      | arith op => exact absurd rfl (hoperation pos op left right)
      | compare op => rfl
  | _ => rfl

/-- All points are clear if all are supported and the pool has room for their literals. -/
theorem clear_iff :
    Clear pool visits ↔
      (∀ v ∈ visits, v.Supported) ∧
        (literalsOf visits ≠ [] → pool + (literalsOf visits).length ≤ 65536) := by
  induction visits generalizing pool with
  | nil => exact iff_of_true (clear_nil pool) ⟨nofun, fun h => absurd rfl h⟩
  | cons v visits ih =>
      rw [clear_cons, offence?_eq_none_iff, ih, List.forall_mem_cons, literalsOf_cons]
      constructor
      · rintro ⟨⟨hv, hfirst⟩, hvisits, hlater⟩
        refine ⟨⟨hv, hvisits⟩, fun hne => ?_⟩
        by_cases hnone : literalsOf visits = []
        · rw [hnone, List.append_nil] at hne ⊢
          exact hfirst hne
        · have hroom := hlater hnone
          rw [List.length_append]
          omega
      · rintro ⟨⟨hv, hvisits⟩, hroom⟩
        rw [List.length_append] at hroom
        refine ⟨⟨hv, fun hne => ?_⟩, hvisits, fun hne => ?_⟩
        · have h := hroom (List.append_ne_nil_of_left_ne_nil hne _)
          omega
        · have h := hroom (List.append_ne_nil_of_right_ne_nil _ hne)
          omega

end Visit

/-! ## Going along the points -/

namespace Package

open Visit

variable {package middle after : Package} {e : CompileError} {r : Compiled}
  {visits front back : List Visit}

/-- What compiling has done along some points. -/
inductive Follows (package : Package) (visits : List Visit) : Compiled → Prop
  /-- There is no offence, and all points have appended their part. -/
  | done {after : Package} (clear : Clear package.constants.size visits)
      (appends : Appends package after (literalsOf visits) (codeOf package.constants.size visits)) :
      Follows package visits (.done after)
  /-- There is an offence at `v` and none at the points `front`, which have appended their part. -/
  | failed {after : Package} {e : CompileError} {front : List Visit} {v : Visit} {back : List Visit}
      (split : visits = front ++ v :: back) (clear : Clear package.constants.size front)
      (offence : v.offence? (package.constants.size + (literalsOf front).length) = some e)
      (appends : Appends package after (literalsOf front) (codeOf package.constants.size front)) :
      Follows package visits (.failed after e)

theorem follows_nil (package : Package) : Follows package [] (.done package) :=
  .done (clear_nil _) (appends_refl package)

/-- A point at which nothing is appended. -/
theorem follows_entry {v : Visit} (hclear : v.offence? package.constants.size = none)
    (hliterals : v.literals = []) (hcode : v.code package.constants.size = []) :
    Follows package [v] (.done package) := by
  refine .done (clear_cons.mpr ⟨hclear, clear_nil _⟩) ?_
  rw [literalsOf_cons, codeOf, hliterals, hcode]
  exact appends_refl package

/-- An offence at the only point. -/
theorem follows_offence {v : Visit} (h : v.offence? package.constants.size = some e) :
    Follows package [v] (.failed package e) := by
  have hsplit : [v] = [] ++ v :: [] := rfl
  exact .failed hsplit (clear_nil _) h (appends_refl package)

/-- What follows the points `front` to their end and then the points `back` follows both. -/
theorem follows_append (h1 : Follows package front (.done middle)) (h2 : Follows middle back r) :
    Follows package (front ++ back) r := by
  cases h1 with
  | done hclear1 happends1 =>
      have hsize := size_of_appends happends1
      cases h2 with
      | done hclear2 happends2 =>
          rw [hsize] at hclear2 happends2
          refine .done (clear_append.mpr ⟨hclear1, hclear2⟩) ?_
          rw [literalsOf_append, codeOf_append]
          exact appends_trans happends1 happends2
      | @failed after e between v rest hsplit hclear2 hoffence happends2 =>
          rw [hsize] at hclear2 hoffence happends2
          have hclear := clear_append.mpr ⟨hclear1, hclear2⟩
          have happends := appends_trans happends1 happends2
          rw [← literalsOf_append, ← codeOf_append] at happends
          have hboth : front ++ back = front ++ between ++ v :: rest := by
            rw [hsplit, List.append_assoc]
          refine .failed hboth hclear ?_ happends
          rw [literalsOf_append, List.length_append, ← Nat.add_assoc]
          exact hoffence

/-- An offence ends the way, whatever points were to come. -/
theorem follows_of_failed (h : Follows package front (.failed after e)) (back : List Visit) :
    Follows package (front ++ back) (.failed after e) := by
  cases h with
  | @failed _ _ done v rest hsplit hclear hoffence happends =>
      have hboth : front ++ back = done ++ v :: (rest ++ back) := by
        rw [hsplit, List.append_assoc, List.cons_append]
      exact .failed hboth hclear hoffence happends

/-- Compiling ends well if and only if there is no offence. -/
theorem error_eq_none_iff (h : Follows package visits r) :
    r.error = none ↔ Clear package.constants.size visits := by
  cases h with
  | done hclear _ => exact iff_of_true rfl hclear
  | failed hsplit _ hoffence _ =>
      refine iff_of_false nofun fun hclear => ?_
      rw [hclear _ _ _ hsplit] at hoffence
      cases hoffence

/-! ## Trees -/

theorem follows_compileConstant (package : Package) (pos : Position) (digits : String)
    (value : Int64) :
    Follows package [.expression (.integer pos digits value)] (package.compileConstant value) := by
  by_cases hfull : maxConstants ≤ package.constants.size
  · have hcompile : package.compileConstant value = .failed package .tooManyConstants :=
      if_pos hfull
    rw [hcompile]
    exact follows_offence (if_pos hfull)
  · have hcompile : package.compileConstant value = .done _ := if_neg hfull
    have happends := appends_of_compileConstant hcompile
    rw [hcompile]
    exact .done (clear_cons.mpr ⟨if_neg hfull, clear_nil _⟩) happends

/-- The point in front of the operands of an operation. -/
theorem follows_operation (package : Package) (pos : Position) (op : ArithOp) (left right : Expr) :
    Follows package [.expression (.binary pos (.arith op) left right)] (.done package) :=
  follows_entry rfl rfl rfl

/-- The point behind the operands of an operation. -/
theorem follows_operator (package : Package) (op : ArithOp) :
    Follows package [.operator op] (.done (package.emit (.arith op))) :=
  .done (clear_cons.mpr ⟨rfl, clear_nil _⟩) (appends_emit package (.arith op))

theorem follows_compileExpr (package : Package) (e : Expr) :
    Follows package e.visits (package.compileExpr e) := by
  fun_induction Package.compileExpr package e with
  | case1 package pos digits value => exact follows_compileConstant package pos digits value
  | case2 package pos op left right after error hleft ihl =>
      rw [hleft] at ihl
      have hentry := follows_operation package pos op left right
      -- neither the right operand nor the operator is come to
      rw [Expr.visits, List.append_assoc]
      exact follows_append hentry (follows_of_failed ihl _)
  | case3 package pos op left right middle hleft after error hright ihl ihr =>
      rw [hleft] at ihl
      rw [hright] at ihr
      have hentry := follows_operation package pos op left right
      have hoperands := follows_append ihl ihr
      exact follows_append hentry (follows_of_failed hoperands _)
  | case4 package pos op left right middle hleft after hright ihl ihr =>
      rw [hleft] at ihl
      rw [hright] at ihr
      have hentry := follows_operation package pos op left right
      have hoperands := follows_append ihl ihr
      exact follows_append hentry (follows_append hoperands (follows_operator after op))
  | case5 package e hliteral hoperation =>
      have hvisits : e.visits = [.expression e] := by
        rw [Expr.visits]
        exact hoperation
      rw [hvisits]
      exact follows_offence (offence?_of_other hliteral hoperation)

mutual

theorem follows_compileStmt (package : Package) (stmt : Stmt) :
    Follows package stmt.visits (package.compileStmt stmt) := by
  cases stmt with
  | binding pos name value => exact follows_offence rfl
  | exit pos value => exact follows_offence rfl
  | expression start value =>
      exact follows_append (follows_entry rfl rfl rfl) (follows_compileExpr package value)
  | block body =>
      exact follows_append (follows_entry rfl rfl rfl) (follows_compileBlock package body)

theorem follows_compileBlock (package : Package) (block : Block) :
    Follows package block.visits (package.compileBlock block) := by
  cases block with
  | mk pos stmts => exact follows_compileStmts package stmts

theorem follows_compileStmts (package : Package) (stmts : List Stmt) :
    Follows package (visitsOf stmts) (package.compileStmts stmts) := by
  cases stmts with
  | nil => exact follows_nil package
  | cons stmt stmts =>
      have hfirst := follows_compileStmt package stmt
      rw [compileStmts, visitsOf]
      rcases hone : package.compileStmt stmt with ⟨middle, _ | error⟩
      · rw [hone] at hfirst
        exact follows_append hfirst (follows_compileStmts middle stmts)
      · rw [hone] at hfirst
        exact follows_of_failed hfirst _

end

/-- Statements behind each other compile one after the other. -/
theorem compileStmts_append (stmts more : List Stmt) :
    package.compileStmts (stmts ++ more) =
      match package.compileStmts stmts with
      | ⟨after, some e⟩ => .failed after e
      | ⟨after, none⟩ => after.compileStmts more := by
  induction stmts generalizing package with
  | nil => rfl
  | cons stmt stmts ih =>
      rw [List.cons_append, compileStmts, compileStmts]
      rcases package.compileStmt stmt with ⟨middle, _ | e⟩
      · exact ih
      · rfl

end Package

/-! ## The points of what compiles -/

namespace Expr

theorem postfixAll_append (base : Nat) (es fs : List Expr) :
    postfixAll base (es ++ fs)
      = postfixAll base es ++ postfixAll (base + (es.flatMap literals).length) fs := by
  induction es generalizing base with
  | nil => rfl
  | cons e es ih =>
      rw [List.cons_append, postfixAll, postfixAll, ih, List.flatMap_cons, List.length_append,
        List.append_assoc, Nat.add_assoc]

/-- The points of an arithmetic expression append its literals and its postfix form. -/
theorem visits_appends {e : Expr} (harith : e.IsArithmetic) (base : Nat) :
    Visit.literalsOf e.visits = e.literals ∧ Visit.codeOf base e.visits = e.postfixFrom base := by
  induction e using IsArithmetic.induct generalizing base with
  | case1 pos digits value => exact ⟨rfl, rfl⟩
  | case2 pos op left right ihl ihr =>
      obtain ⟨hleft, hcodel⟩ := ihl harith.1 base
      obtain ⟨hright, hcoder⟩ := ihr harith.2 (base + left.literals.length)
      have hentry : ∀ pool, (Visit.expression (.binary pos (.arith op) left right)).code pool = [] :=
        fun _ => rfl
      refine ⟨?_, ?_⟩
      · rw [visits, Visit.literalsOf_cons, Visit.literalsOf_append, Visit.literalsOf_append, hleft,
          hright]
        exact List.append_nil _
      · rw [visits, Visit.codeOf, hentry, List.nil_append, Visit.codeOf_append,
          Visit.codeOf_append, Visit.literalsOf_append, hleft]
        show Visit.codeOf base left.visits
          ++ Visit.codeOf (base + left.literals.length) right.visits ++ [.arith op] = _
        rw [hcodel, hcoder]
        rfl
  | case3 e hliteral hoperation =>
      rw [IsArithmetic] at harith
      · exact harith.elim
      · exact hliteral
      · exact hoperation

/-- The postfix form of an arithmetic expression numbers its literals in order. -/
theorem index_postfixFrom {e : Expr} (harith : e.IsArithmetic) (base : Nat) :
    (e.postfixFrom base).filterMap Instruction.index? = List.range' base e.literals.length := by
  obtain ⟨hliterals, hcode⟩ := visits_appends harith base
  rw [← hliterals, ← hcode]
  exact Visit.index_codeOf base e.visits

theorem index_postfixAll {es : List Expr} (harith : ∀ e ∈ es, e.IsArithmetic) (base : Nat) :
    (postfixAll base es).filterMap Instruction.index?
      = List.range' base (es.flatMap literals).length := by
  induction es generalizing base with
  | nil => rfl
  | cons e es ih =>
      obtain ⟨he, hes⟩ := List.forall_mem_cons.mp harith
      rw [postfixAll, List.filterMap_append, index_postfixFrom he, ih hes, List.flatMap_cons,
        List.length_append, List.range'_append_1]

end Expr

mutual

theorem Stmt.visits_appends {stmt : Stmt} (harith : ∀ e ∈ stmt.expressions, e.IsArithmetic)
    (base : Nat) :
    Visit.literalsOf stmt.visits = stmt.expressions.flatMap Expr.literals ∧
      Visit.codeOf base stmt.visits = Expr.postfixAll base stmt.expressions := by
  cases stmt with
  | binding pos name value => exact ⟨rfl, rfl⟩
  | exit pos value => exact ⟨rfl, rfl⟩
  | expression start value =>
      obtain ⟨hliterals, hcode⟩ :=
        Expr.visits_appends (harith value (List.mem_singleton.mpr rfl)) base
      refine ⟨?_, ?_⟩
      · exact hliterals.trans (List.append_nil _).symm
      · exact hcode.trans (List.append_nil _).symm
  | block body => exact Block.visits_appends harith base

theorem Block.visits_appends {block : Block} (harith : ∀ e ∈ block.expressions, e.IsArithmetic)
    (base : Nat) :
    Visit.literalsOf block.visits = block.expressions.flatMap Expr.literals ∧
      Visit.codeOf base block.visits = Expr.postfixAll base block.expressions := by
  cases block with
  | mk pos stmts => exact visitsOf_appends harith base

/-- The points of statements with arithmetic expressions append the literals and the postfix forms
of the expressions. -/
theorem visitsOf_appends {stmts : List Stmt} (harith : ∀ e ∈ expressionsOf stmts, e.IsArithmetic)
    (base : Nat) :
    Visit.literalsOf (visitsOf stmts) = (expressionsOf stmts).flatMap Expr.literals ∧
      Visit.codeOf base (visitsOf stmts) = Expr.postfixAll base (expressionsOf stmts) := by
  cases stmts with
  | nil => exact ⟨rfl, rfl⟩
  | cons stmt stmts =>
      rw [expressionsOf] at harith ⊢
      obtain ⟨hfirst, hcode⟩ :=
        Stmt.visits_appends (fun e he => harith e (List.mem_append_left _ he)) base
      obtain ⟨hrest, hcodes⟩ :=
        visitsOf_appends (fun e he => harith e (List.mem_append_right _ he))
          (base + (stmt.expressions.flatMap Expr.literals).length)
      refine ⟨?_, ?_⟩
      · rw [visitsOf, Visit.literalsOf_append, hfirst, hrest, List.flatMap_append]
      · rw [visitsOf, Visit.codeOf_append, hfirst, hcode, hcodes, Expr.postfixAll_append]

end

/--
**Compiling ends at the first offence.**

Whatever programs the compiler was handed before, it compiles a program if and only if the program's
statements are expressions and blocks, its expressions are numbers and arithmetic operations, and
the pool has room for its literals. Then the literals are appended to the pool, and the postfix forms
of the expressions, which number the literals in order, to the code. If it does not compile, its
points begin with some at which nothing is wrong and one at which something is, which is the error;
and what those in front of it append has been appended, and nothing else. Two programs handed to the
compiler one after the other are compiled like one that consists of both.
-/
theorem Package.compile_first_offence (programs : List Program) (program further : Program) :
    let before := empty.compileAll programs
    let pool := before.constants.size
    let literals := program.expressions.flatMap Expr.literals
    ((before.compile program).error = none ↔
        (∀ v ∈ program.visits, v.Supported) ∧
          pool + (Visit.literalsOf program.visits).length ≤ 65536) ∧
      (∀ after, before.compile program = .done after →
        Visit.literalsOf program.visits = literals ∧
          Appends before after literals (Expr.postfixAll pool program.expressions) ∧
          (Expr.postfixAll pool program.expressions).filterMap Instruction.index?
            = List.range' pool literals.length) ∧
      (∀ after e, before.compile program = .failed after e →
        ∃ front v back, program.visits = front ++ v :: back ∧ Visit.Clear pool front ∧
          v.offence? (pool + (Visit.literalsOf front).length) = some e ∧
          Appends before after (Visit.literalsOf front) (Visit.codeOf pool front)) ∧
      before.compile ⟨program.statements ++ further.statements⟩ =
        match before.compile program with
        | ⟨after, some e⟩ => .failed after e
        | ⟨after, none⟩ => after.compile further := by
  intro before pool literals
  have hfollows : Follows before program.visits (before.compile program) :=
    follows_compileStmts before program.statements
  have hbounded : pool ≤ maxConstants := by
    obtain ⟨rise, hgrows⟩ := grows_compileAll empty programs
    exact (coherent_of_grows hgrows).bounded
  refine ⟨?_, fun after hdone => ?_, fun after e hfailed => ?_, compileStmts_append _ _⟩
  · rw [error_eq_none_iff hfollows, Visit.clear_iff]
    refine and_congr_right fun _ => ⟨fun hroom => ?_, fun hroom _ => hroom⟩
    -- without literals the pool is as it was
    by_cases hnone : Visit.literalsOf program.visits = []
    · rw [hnone]
      exact hbounded
    · exact hroom hnone
  · obtain ⟨harith, -⟩ := appends_of_compileExprs (compileExprs_of_compileStmts hdone)
    obtain ⟨hliterals, hcode⟩ := visitsOf_appends harith pool
    rw [hdone] at hfollows
    cases hfollows with
    | done _ happends =>
        rw [Program.visits, hliterals, hcode] at happends
        exact ⟨hliterals, happends, Expr.index_postfixAll harith pool⟩
  · rw [hfailed] at hfollows
    cases hfollows with
    | @failed _ _ front v back hsplit hclear hoffence happends =>
        exact ⟨front, v, back, hsplit, hclear, hoffence, happends⟩

/-- The program `7`. -/
def literalProgram : Program := ⟨[.expression ⟨.integer, "7", .start⟩ (.integer .start "7" 7)]⟩

/-- The program `1 + 2 { x < 3 } 4`, or another node in place of the comparison. -/
def refusedProgram (node : Expr) : Program :=
  let digit (value : Int64) : Expr := .integer .start (toString value) value
  let statement (e : Expr) : Stmt := .expression ⟨.integer, "", .start⟩ e
  ⟨[statement (.binary .start (.arith .add) (digit 1) (digit 2)),
    .block ⟨.start, [statement node]⟩, statement (digit 4)]⟩

/-- `x < 3`. -/
def comparison : Expr :=
  .binary .start (.compare .less) (.identifier ⟨"x", .start⟩) (.integer .start "3" 3)

/-- A compiler that has been handed `7` compiles the sum and then gives up at the comparison, whose
operands are not looked at, so the variable in it is not what is reported. With a number in place of
the comparison it goes on to the end. -/
theorem Package.compile_first_offence_comparison :
    let before := empty.compileAll [literalProgram]
    let after : Package := ⟨#[0, 0, 0, 0, 0, 1, 0, 0, 2, 1], #[.int 7, .int 1, .int 2]⟩
    let error := CompileError.unhandledNode "infix expression"
      (some "only the arithmetic operators + - * / are supported by the bytecode compiler")
    (before.compile (refusedProgram comparison) = .failed after error ∧
      ∃ front v back, (refusedProgram comparison).visits = front ++ v :: back ∧
        v.offence? (1 + (Visit.literalsOf front).length) = some error ∧
        Appends before after (Visit.literalsOf front) (Visit.codeOf 1 front)) ∧
      (before.compile (refusedProgram (.integer .start "3" 3))).error = none ∧
      before.compile ⟨(refusedProgram comparison).statements ++ literalProgram.statements⟩
        = .failed after error := by
  intro before after error
  have hfails : before.compile (refusedProgram comparison) = .failed after error := by
    unfold before after error
    rfl
  have hsupported : (∀ v ∈ (refusedProgram (.integer .start "3" 3)).visits, v.Supported) ∧
      1 + (Visit.literalsOf (refusedProgram (.integer .start "3" 3)).visits).length ≤ 65536 := by
    refine ⟨?_, by decide⟩
    simp [Program.visits, refusedProgram, visitsOf, Stmt.visits, Block.visits, Expr.visits,
      Visit.Supported]
  obtain ⟨-, -, hfirst, happend⟩ :=
    compile_first_offence [literalProgram] (refusedProgram comparison) literalProgram
  obtain ⟨front, v, back, hvisits, -, hoffence, happends⟩ := hfirst _ _ hfails
  refine ⟨⟨hfails, front, v, back, hvisits, hoffence, happends⟩, ?_, ?_⟩
  · exact (compile_first_offence [literalProgram] _ literalProgram).1.mpr hsupported
  · rw [happend]
    exact congrArg (fun r : Compiled => match r with
      | ⟨after, some e⟩ => Compiled.failed after e
      | ⟨after, none⟩ => after.compile literalProgram) hfails

end ExprMachine
