import ExprMachine.Proofs.Parser.Chain
import ExprMachine.Proofs.Parser.Success

/-!
# Reading chains

The parser reads a chain from the left with a level in hand. It never looks for the root: it takes
the next operator into the tree as soon as that binds tighter than the level, with whatever binds
tighter still as its right operand.

Where this ends up is the tree that grows from the root. All operators in front of the root bind at
least as tightly, so a reading of the part in front of the root ends at the root; all operators
behind it bind tighter, so its right operand is everything that is left (`continuations_links`). The
terms in between are read one like the other at every level below that of calls (`Reads`).
-/

namespace ExprMachine

open ExprMachine.Parser

theorem BinaryOp.rank_precedence (op : BinaryOp) : op.precedence.rank = op.tightness + 1 := by
  rcases op with (_ | _ | _ | _) | (_ | _ | _ | _) <;> rfl

/-- The parser's levels are in the order in which the operators bind. -/
theorem BinaryOp.precedence_lt {op op' : BinaryOp} :
    op.precedence < op'.precedence ↔ op.tightness < op'.tightness := by
  show op.precedence.rank < op'.precedence.rank ↔ _
  rw [rank_precedence, rank_precedence, Nat.succ_lt_succ_iff]

theorem Operator.ofKind?_token (operator : Operator) :
    Continuation.ofKind? operator.token.kind = some (.binary operator.op) :=
  Continuation.ofKind?_of_binary operator.spelled

/-- What is read at the level ends in front of the tokens. -/
def Ends (level : Precedence) (ts : List Token) : Prop :=
  ∀ continuation ∈ Continuation.ofKind? (nextKind ts), ¬level < continuation.precedence

theorem Ends.mono {level higher : Precedence} {ts : List Token} (h : Ends level ts)
    (hl : level < higher) : Ends higher ts :=
  fun continuation hc hhigher => h continuation hc (Nat.lt_trans hl hhigher)

theorem ends_of_none {ts : List Token} (h : Continuation.ofKind? (nextKind ts) = none)
    (level : Precedence) : Ends level ts := by
  intro continuation hc
  rw [h] at hc
  cases hc

theorem ends_operator {level : Precedence} {operator : Operator} (rest : List Token)
    (h : ¬level < operator.op.precedence) : Ends level (operator.token :: rest) := by
  intro continuation hc
  have hbinary : Continuation.ofKind? (nextKind (operator.token :: rest)) =
      some (.binary operator.op) := operator.ofKind?_token
  rw [hbinary] at hc
  obtain rfl := Option.some.inj hc
  exact h

theorem continuations_of_ends {eof : Position} {level : Precedence} {left : Expr}
    {ts : List Token} (h : Ends level ts) :
    (continuations eof level left ts).outcome = ⟨some left, ts, []⟩ := by
  cases ts with
  | nil => exact continuations_stop rfl
  | cons t rest =>
      have habove : Continuation.above? level t.kind = none :=
        Option.filter_eq_none_iff.mpr fun continuation hc => by simpa using h continuation hc
      rw [continuations, habove]
      rfl

/-- The tokens are read as an operand of any operator. -/
def Reads (ts : List Token) (e : Expr) : Prop :=
  ∀ (eof : Position) {level : Precedence} {rest : List Token}, level < .call → Ends .unary rest →
    (exprAt eof level (ts ++ rest)).outcome = (continuations eof level e rest).outcome

/-! ## Terms in a row -/

theorem linkTokens_append (links more : List (Link Term)) :
    linkTokens (links ++ more) = linkTokens links ++ linkTokens more := by
  induction links with
  | nil => rfl
  | cons link links ih =>
      obtain ⟨operator, right⟩ := link
      rw [List.cons_append, linkTokens, linkTokens, ih]
      simp only [List.cons_append, List.append_assoc]

theorem linkTrees_eq_map (links : List (Link Term)) :
    linkTrees links = links.map (Link.map Term.tree) := by
  induction links with
  | nil => rfl
  | cons link links ih =>
      rw [List.map_cons, ← ih]
      rfl

theorem Split.linkTokens_eq {links : List (Link Term)} (s : Split links) :
    linkTokens links = linkTokens s.before ++
      s.root.operator.token :: (s.root.right.tokens ++ linkTokens s.behind) :=
  (congrArg linkTokens s.whole).symm.trans (linkTokens_append _ _)

/-- A part of a chain ends in front of what its loosest operator ends in front of. -/
theorem ends_linkTokens {level : Precedence} {links : List (Link Term)} {rest : List Token}
    (hlinks : ∀ link ∈ links, ¬level < link.operator.op.precedence)
    (hrest : Ends level rest) : Ends level (linkTokens links ++ rest) := by
  cases links with
  | nil => exact hrest
  | cons link links => exact ends_operator _ (hlinks link List.mem_cons_self)

/-- **Links on an operand.** Operators that bind tighter than the level, in front of something that
none of them binds, are all taken into the tree, grouped from the root down. -/
theorem continuations_links (eof : Position) {links : List (Link Term)}
    (hreads : ∀ link ∈ links, Reads link.right.tokens link.right.tree) {level : Precedence}
    (htight : ∀ link ∈ links, level < link.operator.op.precedence) {rest : List Token}
    (hends : ∀ link ∈ links, Ends link.operator.op.precedence rest) (left : Expr) :
    (continuations eof level left (linkTokens links ++ rest)).outcome =
      (continuations eof level (Link.grouped left (links.map (Link.map Term.tree)))
        rest).outcome := by
  induction hn : links.length using Nat.strongRecOn generalizing links level rest left with
  | ind n ih =>
  obtain rfl | ⟨⟨s⟩⟩ : links = [] ∨ Nonempty (Split links) := by
    cases links with
    | nil => exact .inl rfl
    | cons link links => exact .inr ⟨.of link links⟩
  · rw [List.map_nil, Link.grouped_nil, linkTokens, List.nil_append]
  have hlength := s.length_eq
  have hgrouped := Link.grouped_split left (s.map Term.tree)
  obtain ⟨hreadsBefore, hreadsRoot, hreadsBehind⟩ := s.forall_mem hreads
  obtain ⟨htightBefore, htightRoot, -⟩ := s.forall_mem htight
  obtain ⟨-, hendsRoot, hendsBehind⟩ := s.forall_mem hends
  -- what stands in front of the root ends there
  have hleft (ts : List Token) :
      (continuations eof level left (linkTokens s.before ++ s.root.operator.token :: ts)).outcome =
        (continuations eof level (Link.grouped left (s.before.map (Link.map Term.tree)))
          (s.root.operator.token :: ts)).outcome := by
    refine ih s.before.length (by omega) hreadsBefore htightBefore (fun link hl => ?_) left rfl
    refine ends_operator _ fun hlt => ?_
    exact Nat.not_lt_of_le (s.least link hl) (BinaryOp.precedence_lt.mp hlt)
  -- what stands behind it is its right operand
  have hright : (exprAt eof s.root.operator.op.precedence
      (s.root.right.tokens ++ (linkTokens s.behind ++ rest))).outcome =
      ⟨some (Link.grouped s.root.right.tree (s.behind.map (Link.map Term.tree))), rest, []⟩ := by
    have hlevel := s.root.operator.op.precedence_bounds.2
    have hnext : Ends .unary (linkTokens s.behind ++ rest) :=
      ends_linkTokens (fun link _ => Nat.lt_asymm link.operator.op.precedence_bounds.2)
        (hendsRoot.mono hlevel)
    rw [hreadsRoot eof (Nat.lt_trans hlevel (by decide)) hnext,
      ih s.behind.length (by omega) hreadsBehind
        (fun link hl => BinaryOp.precedence_lt.mpr (s.last link hl)) hendsBehind _ rfl]
    exact continuations_of_ends hendsRoot
  rw [s.linkTokens_eq, hgrouped, List.append_assoc, List.cons_append, List.append_assoc, hleft]
  exact continuations_binary s.root.operator.spelled htightRoot hright

/-! ## Terms -/

theorem reads_sign {sign : Sign} {ts : List Token} {e : Expr} (h : Reads ts e) :
    Reads (sign.token :: ts) (.unary sign.token.pos sign.op e) := by
  intro eof level rest _ hrest
  have hright : (exprAt eof .unary (ts ++ rest)).outcome = ⟨some e, rest, []⟩ :=
    (h eof (by decide) hrest).trans (continuations_of_ends hrest)
  exact exprAt_of_operand (operand_unary sign.spelled hright)

theorem reads_signs (signs : List Sign) {ts : List Token} {e : Expr} (h : Reads ts e) :
    Reads (signs.map Sign.token ++ ts) (Sign.applied signs e) := by
  induction signs with
  | nil => exact h
  | cons sign signs ih => exact reads_sign ih

/-- The chain is read as its tree in front of what continues no operand. -/
def Chain.IsRead (chain : Chain) : Prop :=
  ∀ (eof : Position) {rest : List Token}, Continuation.ofKind? (nextKind rest) = none →
    (exprAt eof .lowest (chain.tokens ++ rest)).outcome = ⟨some chain.tree, rest, []⟩

theorem ofKind?_of {kind : Token.Kind} (t : Token.Of kind) (rest : List Token)
    (h : Continuation.ofKind? kind = none) :
    Continuation.ofKind? (nextKind (t.val :: rest)) = none :=
  (congrArg Continuation.ofKind? t.property).trans h

/-- No expression begins with a closing parenthesis. -/
theorem nextKind_ne_of_exprAt {eof : Position} {ts rest : List Token} {e : Expr}
    (h : (exprAt eof .lowest ts).outcome = ⟨some e, rest, []⟩) : nextKind ts ≠ .rightParen := by
  intro hkind
  cases ts with
  | nil => cases hkind
  | cons t ts =>
      -- an operand that begins with one is reported and gives no node
      rw [exprAt, expr, operand, show t.kind = .rightParen from hkind] at h
      cases h

theorem Chain.isRead_of_terms {first : Term} {links : List (Link Term)}
    (hfirst : Reads first.tokens first.tree)
    (hlinks : ∀ link ∈ links, Reads link.right.tokens link.right.tree) :
    (Chain.mk first links).IsRead := by
  intro eof rest hrest
  have hends := ends_of_none hrest
  have hnext : Ends .unary (linkTokens links ++ rest) :=
    ends_linkTokens (fun link _ => Nat.lt_asymm link.operator.op.precedence_bounds.2) (hends _)
  rw [Chain.tokens, Chain.tree, linkTrees_eq_map, List.append_assoc, hfirst eof (by decide) hnext,
    continuations_links eof hlinks (fun link _ => link.operator.op.precedence_bounds.1)
      (fun link _ => hends _)]
  exact continuations_of_ends (hends _)

/-- The arguments of a call from the first on. -/
theorem moreArguments_of_isRead (eof : Position) {first : Chain} (hfirst : first.IsRead)
    {more : List Argument} (hmore : ∀ argument ∈ more, argument.value.IsRead)
    (closing : Token.Of .rightParen) (rest : List Token) :
    (moreArguments eof (first.tokens ++ (argumentTokens more ++ closing.val :: rest))).outcome =
      ⟨some (first.tree :: argumentTrees more), rest, []⟩ := by
  induction more generalizing first with
  | nil => exact moreArguments_last (hfirst eof (ofKind?_of closing rest rfl)) closing.property
  | cons argument more ih =>
      obtain ⟨comma, value⟩ := argument
      obtain ⟨hvalue, hmore⟩ := List.forall_mem_cons.mp hmore
      rw [argumentTokens, argumentTrees, List.cons_append, List.append_assoc]
      exact moreArguments_cons (hfirst eof (ofKind?_of comma _ rfl)) comma.property
        (ih hvalue hmore)

/-- The tokens are read as an operand, with whatever follows them. -/
def Atom.IsRead (atom : Atom) : Prop :=
  ∀ (eof : Position) (level : Precedence) (rest : List Token),
    (exprAt eof level (atom.tokens ++ rest)).outcome =
      (continuations eof level atom.tree rest).outcome

theorem Atom.isRead_integer (t : Token.Of .integer) {n : Nat}
    (value : digitsValue? t.val.literal = some n) (inRange : n < 2 ^ 63) :
    (Atom.integer t n value inRange).IsRead := by
  intro eof level rest
  have hword : wordValue? t.val.literal = some (Int64.ofNat n) := by
    rw [wordValue?, value, Option.bind_some]
    exact if_pos inRange
  exact exprAt_of_operand (operand_integer rest t.property hword)

theorem Atom.isRead_group (opening : Token.Of .leftParen) {inner : Chain} (h : inner.IsRead)
    (closing : Token.Of .rightParen) : (Atom.group opening inner closing).IsRead := by
  intro eof level rest
  rw [Atom.tokens, Atom.tree, List.cons_append, List.append_assoc]
  exact exprAt_of_operand
    (operand_group opening.property (h eof (ofKind?_of closing rest rfl)) closing.property)

/-- The tokens continue whatever stands in front of them. -/
def Suffix.IsRead (suffix : Suffix) : Prop :=
  ∀ (eof : Position) {level : Precedence} (left : Expr) (rest : List Token), level < .call →
    (continuations eof level left (suffix.tokens ++ rest)).outcome =
      (continuations eof level (suffix.applied left) rest).outcome

theorem Suffix.isRead_call (opening : Token.Of .leftParen) (closing : Token.Of .rightParen) :
    (Suffix.call opening closing).IsRead := by
  intro eof level left rest hlevel
  have harguments : (arguments eof (closing.val :: rest)).outcome = ⟨some [], rest, []⟩ := by
    rw [arguments, take?_cons rest closing.property]
    rfl
  exact continuations_call opening.property hlevel harguments

theorem Suffix.isRead_callWith (opening : Token.Of .leftParen) {first : Chain}
    (hfirst : first.IsRead) {more : List Argument}
    (hmore : ∀ argument ∈ more, argument.value.IsRead) (closing : Token.Of .rightParen) :
    (Suffix.callWith opening first more closing).IsRead := by
  intro eof level left rest hlevel
  have hnext : Continuation.ofKind? (nextKind (argumentTokens more ++ closing.val :: rest)) =
      none := by
    cases more with
    | nil => exact ofKind?_of closing rest rfl
    | cons argument more =>
        obtain ⟨comma, value⟩ := argument
        exact ofKind?_of comma _ rfl
  -- the list of arguments is not taken for an empty one
  have hne := nextKind_ne_of_exprAt (hfirst eof hnext)
  have harguments :
      (arguments eof (first.tokens ++ (argumentTokens more ++ closing.val :: rest))).outcome =
        ⟨some (first.tree :: argumentTrees more), rest, []⟩ := by
    rw [arguments, take?_none hne]
    exact moreArguments_of_isRead eof hfirst hmore closing rest
  rw [Suffix.tokens, Suffix.applied, List.cons_append, List.append_assoc, List.append_assoc]
  exact continuations_call opening.property hlevel harguments

theorem Suffix.isRead_index (opening : Token.Of .leftBracket) {place : Chain} (h : place.IsRead)
    (closing : Token.Of .rightBracket) : (Suffix.index opening place closing).IsRead := by
  intro eof level left rest hlevel
  rw [Suffix.tokens, Suffix.applied, List.cons_append, List.append_assoc]
  exact continuations_index opening.property (Nat.lt_trans hlevel (by decide))
    (h eof (ofKind?_of closing rest rfl)) closing.property

theorem continuations_suffixes (eof : Position) {suffixes : List Suffix}
    (h : ∀ suffix ∈ suffixes, suffix.IsRead) {level : Precedence} (left : Expr)
    (rest : List Token) (hlevel : level < .call) :
    (continuations eof level left (suffixTokens suffixes ++ rest)).outcome =
      (continuations eof level (suffixed left suffixes) rest).outcome := by
  induction suffixes generalizing left with
  | nil => rw [suffixTokens, suffixed, List.nil_append]
  | cons suffix suffixes ih =>
      obtain ⟨hsuffix, hsuffixes⟩ := List.forall_mem_cons.mp h
      rw [suffixTokens, suffixed, List.append_assoc, hsuffix eof left _ hlevel,
        ih hsuffixes (suffix.applied left)]

/-! ## Every chain -/

mutual

theorem Chain.isRead (chain : Chain) : chain.IsRead := by
  cases chain with
  | mk first links => exact Chain.isRead_of_terms first.reads (links_read links)

theorem links_read (links : List (Link Term)) :
    ∀ link ∈ links, Reads link.right.tokens link.right.tree := by
  cases links with
  | nil => exact List.forall_mem_nil _
  | cons link links =>
      obtain ⟨operator, right⟩ := link
      exact List.forall_mem_cons.mpr ⟨right.reads, links_read links⟩

theorem Term.reads (term : Term) : Reads term.tokens term.tree := by
  cases term with
  | mk signs atom suffixes =>
      refine reads_signs signs fun eof level rest hlevel _ => ?_
      rw [List.append_assoc, atom.isRead eof level _,
        continuations_suffixes eof (suffixes_read suffixes) atom.tree rest hlevel]

theorem Atom.isRead (atom : Atom) : atom.IsRead := by
  cases atom with
  | identifier t =>
      exact fun eof level rest => exprAt_of_operand (operand_identifier rest t.property)
  | integer t n value inRange => exact Atom.isRead_integer t value inRange
  | string t => exact fun eof level rest => exprAt_of_operand (operand_string rest t.property)
  | bool value t => exact fun eof level rest => exprAt_of_operand (operand_bool rest t.property)
  | group opening inner closing => exact Atom.isRead_group opening inner.isRead closing

theorem suffixes_read (suffixes : List Suffix) : ∀ suffix ∈ suffixes, suffix.IsRead := by
  cases suffixes with
  | nil => exact List.forall_mem_nil _
  | cons suffix suffixes =>
      exact List.forall_mem_cons.mpr ⟨suffix.isRead, suffixes_read suffixes⟩

theorem Suffix.isRead (suffix : Suffix) : suffix.IsRead := by
  cases suffix with
  | call opening closing => exact Suffix.isRead_call opening closing
  | callWith opening first more closing =>
      exact Suffix.isRead_callWith opening first.isRead (arguments_read more) closing
  | index opening place closing => exact Suffix.isRead_index opening place.isRead closing

theorem arguments_read (more : List Argument) : ∀ argument ∈ more, argument.value.IsRead := by
  cases more with
  | nil => exact List.forall_mem_nil _
  | cons argument more =>
      obtain ⟨comma, value⟩ := argument
      exact List.forall_mem_cons.mpr ⟨value.isRead, arguments_read more⟩

end

/--
**A chain is read as its tree.**

In front of a semicolon or the end of the text the parser reports nothing, takes the tokens of the
chain and no others, and gives the tree that is grouped from the root down.
-/
theorem exprAt_chain (eof : Position) (chain : Chain) (rest : List Token)
    (h : nextKind rest = .semicolon ∨ nextKind rest = .eof) :
    (exprAt eof .lowest (chain.tokens ++ rest)).outcome = ⟨some chain.tree, rest, []⟩ := by
  refine chain.isRead eof ?_
  rcases h with h | h
  · rw [h]
    rfl
  · rw [h]
    rfl

/-- The text `a - b * -c - d;`, whose root is the last of its operators. -/
theorem exprAt_chain_differences :
    (exprAt ⟨1, 16⟩ .lowest
      [⟨.identifier, "a", ⟨1, 1⟩⟩, ⟨.minus, "-", ⟨1, 3⟩⟩, ⟨.identifier, "b", ⟨1, 5⟩⟩,
        ⟨.asterisk, "*", ⟨1, 7⟩⟩, ⟨.minus, "-", ⟨1, 9⟩⟩, ⟨.identifier, "c", ⟨1, 10⟩⟩,
        ⟨.minus, "-", ⟨1, 12⟩⟩, ⟨.identifier, "d", ⟨1, 14⟩⟩,
        ⟨.semicolon, ";", ⟨1, 15⟩⟩]).outcome =
      ⟨some (.binary ⟨1, 12⟩ (.arith .sub)
        (.binary ⟨1, 3⟩ (.arith .sub) (.identifier ⟨"a", ⟨1, 1⟩⟩)
          (.binary ⟨1, 7⟩ (.arith .mul) (.identifier ⟨"b", ⟨1, 5⟩⟩)
            (.unary ⟨1, 9⟩ .negate (.identifier ⟨"c", ⟨1, 10⟩⟩))))
        (.identifier ⟨"d", ⟨1, 14⟩⟩)), [⟨.semicolon, ";", ⟨1, 15⟩⟩], []⟩ := by
  have hread := exprAt_chain ⟨1, 16⟩
    ⟨⟨[], .identifier ⟨⟨.identifier, "a", ⟨1, 1⟩⟩, rfl⟩, []⟩,
      [⟨⟨⟨.minus, "-", ⟨1, 3⟩⟩, .arith .sub, rfl⟩,
        ⟨[], .identifier ⟨⟨.identifier, "b", ⟨1, 5⟩⟩, rfl⟩, []⟩⟩,
      ⟨⟨⟨.asterisk, "*", ⟨1, 7⟩⟩, .arith .mul, rfl⟩,
        ⟨[⟨⟨.minus, "-", ⟨1, 9⟩⟩, .negate, rfl⟩],
          .identifier ⟨⟨.identifier, "c", ⟨1, 10⟩⟩, rfl⟩, []⟩⟩,
      ⟨⟨⟨.minus, "-", ⟨1, 12⟩⟩, .arith .sub, rfl⟩,
        ⟨[], .identifier ⟨⟨.identifier, "d", ⟨1, 14⟩⟩, rfl⟩, []⟩⟩]⟩
    [⟨.semicolon, ";", ⟨1, 15⟩⟩] (.inl rfl)
  refine hread.trans ?_
  cbv

end ExprMachine
