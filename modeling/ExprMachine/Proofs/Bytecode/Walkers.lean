import ExprMachine.Proofs.Bytecode.Lines

/-!
# Everyone sees the same instructions

Four parts of the library go along the code, each for its own purpose: the statistics count, the
listing writes down, the check keeps a height, the machine computes. They stop for different
reasons, and what one of them makes of an instruction is nothing to the others. What they have to
agree about is where the instructions stand.

The check and the machine say only how they ended, so which instructions they came to has to be
recorded. A `Walker` is someone who goes along the code with a state, and `Walker.walk` is the walk
with the instructions that it came to beside its result. The check and the machine are walkers
(`Check.walk_result`, `Machine.walk_result`), and what holds of all walkers holds of them. What is
recorded of them is what they did: the check has looked at what stands up to the offset that it
reports (`Check.seen_of_error`), and the machine comes to an instruction behind as many others as
complete in front of it (`Package.seen_runWalk_iff`).

**Every walker** sees a beginning of the instructions that stand in the code (`seen_initial`).

**A walker that ends well** has seen them all, and they are all of the code (`seen_all`).
-/

namespace ExprMachine

/-! ## Walkers -/

/-- Someone who carries a state along the code. -/
structure Walker (σ ρ : Type) where
  /-- The state behind the instruction at an offset, or the result of a walk that ends there. -/
  take : Nat → Instruction → σ → Except ρ σ
  /-- The result where the code ends. -/
  ending : σ → ρ
  /-- The result at an offset with a byte that is no opcode's. -/
  unknown : Nat → UInt8 → σ → ρ
  /-- The result at an offset where operands are missing. -/
  truncated : Nat → Opcode → σ → ρ

/-- What a walker did. -/
structure Walk (ρ : Type) where
  /-- The instructions that it came to, each with its offset. -/
  seen : List (Nat × Instruction)
  result : ρ

namespace Walker

variable {σ ρ : Type}

/-- The walk along code that starts at `ip`. -/
def walk (w : Walker σ ρ) (ip : Nat) (code : List UInt8) (s : σ) : Walk ρ :=
  match _ : Instruction.fetch code with
  | .complete i rest =>
    match w.take ip i s with
    | .error result => ⟨[(ip, i)], result⟩
    | .ok s' =>
      let later := w.walk (ip + i.size) rest s'
      ⟨(ip, i) :: later.seen, later.result⟩
  | .ending => ⟨[], w.ending s⟩
  | .unknown byte _ => ⟨[], w.unknown ip byte s⟩
  | .truncated op => ⟨[], w.truncated ip op s⟩
termination_by code.length
decreasing_by exact Instruction.length_rest_lt ‹_›

theorem walk_eq (w : Walker σ ρ) (ip : Nat) (code : List UInt8) (s : σ) :
    w.walk ip code s =
      match Instruction.fetch code with
      | .complete i rest =>
        match w.take ip i s with
        | .error result => ⟨[(ip, i)], result⟩
        | .ok s' =>
          ⟨(ip, i) :: (w.walk (ip + i.size) rest s').seen, (w.walk (ip + i.size) rest s').result⟩
      | .ending => ⟨[], w.ending s⟩
      | .unknown byte _ => ⟨[], w.unknown ip byte s⟩
      | .truncated op => ⟨[], w.truncated ip op s⟩ := by
  rw [walk]
  split <;> rename_i h <;> rw [h]

variable {code : Array UInt8} {ip stop : Nat} {entries : List (Nat × Instruction)}

/-- A walker sees the instruction that stands where it is, and goes on behind it if it likes. -/
theorem walk_of_stands {i : Instruction} {next : Nat} (w : Walker σ ρ)
    (h : Semantics.Stands code ip i next) (s : σ) :
    w.walk ip (code.toList.drop ip) s =
      match w.take ip i s with
      | .error result => ⟨[(ip, i)], result⟩
      | .ok s' =>
        ⟨(ip, i) :: (w.walk next (code.toList.drop next) s').seen,
          (w.walk next (code.toList.drop next) s').result⟩ := by
  obtain ⟨hfetch, hnext, -⟩ := fetch_of_stands h
  rw [walk_eq, hfetch, hnext]

/-- **Every walker** sees instructions that stand in the code, from the first one on. -/
theorem seen_initial (w : Walker σ ρ) (h : Laid code ip entries stop) (hstops : StopsAt code stop)
    (s : σ) : (w.walk ip (code.toList.drop ip) s).seen <+: entries := by
  induction h generalizing s with
  | nil ip =>
      rw [walk_eq]
      rcases fetch_of_stopsAt hstops with ⟨hfetch, -⟩ | ⟨-, ⟨byte, rest, hfetch⟩ | ⟨op, hfetch⟩⟩
      · rewrite [hfetch]
        exact List.nil_prefix
      · rewrite [hfetch]
        exact List.nil_prefix
      · rewrite [hfetch]
        exact List.nil_prefix
  | @cons ip next stop i entries hstands _ ih =>
      rw [w.walk_of_stands hstands]
      rcases w.take ip i s with result | s'
      · exact List.cons_prefix_cons.mpr ⟨rfl, List.nil_prefix⟩
      · exact List.cons_prefix_cons.mpr ⟨rfl, ih hstops s'⟩

/-- The walker has this result where the code ends, and nowhere else. -/
structure EndsWell (w : Walker σ ρ) (result : ρ) : Prop where
  take : ∀ ip i s, w.take ip i s ≠ .error result
  unknown : ∀ ip byte s, w.unknown ip byte s ≠ result
  truncated : ∀ ip op s, w.truncated ip op s ≠ result

/-- **A walker that ends well** has seen every instruction, and there is no other code. -/
theorem seen_all (w : Walker σ ρ) (h : Laid code ip entries stop) (hstops : StopsAt code stop)
    {s : σ} (hwell : w.EndsWell (w.walk ip (code.toList.drop ip) s).result) :
    (w.walk ip (code.toList.drop ip) s).seen = entries ∧ stop = code.size := by
  induction h generalizing s with
  | nil ip =>
      rw [walk_eq] at hwell ⊢
      rcases fetch_of_stopsAt hstops with ⟨hfetch, hend⟩ | ⟨-, ⟨byte, rest, hfetch⟩ | ⟨op, hfetch⟩⟩
      · rw [hfetch]
        exact ⟨rfl, hend⟩
      · rw [hfetch] at hwell
        exact absurd rfl (hwell.unknown ip byte s)
      · rw [hfetch] at hwell
        exact absurd rfl (hwell.truncated ip op s)
  | @cons ip next stop i entries hstands _ ih =>
      rw [w.walk_of_stands hstands] at hwell ⊢
      rcases htake : w.take ip i s with result | s'
      · rw [htake] at hwell
        exact absurd htake (hwell.take ip i s)
      · rw [htake] at hwell
        obtain ⟨hseen, hend⟩ := ih hstops hwell
        exact ⟨congrArg ((ip, i) :: ·) hseen, hend⟩

end Walker

/-! ## The check and the machine are walkers -/

/-- The check goes along the code with a height. -/
def Check.walker (poolSize capacity : Nat) : Walker Nat (Except CheckError Nat) where
  take ip i height :=
    match step poolSize capacity ip height i with
    | .error e => .error (.error e)
    | .ok after => .ok after
  ending height := .ok height
  unknown ip byte _ := .error (.unknownOpcode byte ip)
  truncated ip op _ := .error (.truncatedOperands op ip)

/-- The machine goes along the code with a stack. -/
def Machine.walker (constants : Array Value) : Walker OperandStack RunEnd where
  take _ i stack :=
    match perform constants i stack with
    | ⟨after, some fault⟩ => .error ⟨after, some fault⟩
    | ⟨after, none⟩ => .ok after
  ending stack := ⟨stack, none⟩
  unknown ip byte stack := ⟨stack, some (.unknownOpcode byte ip)⟩
  truncated ip op stack := ⟨stack, some (.truncatedOperand op ip)⟩

theorem Check.walk_result (poolSize capacity ip height : Nat) (code : List UInt8) :
    ((walker poolSize capacity).walk ip code height).result
      = walk poolSize capacity ip height code := by
  induction code using Instruction.fetch_induction generalizing ip height with
  | ending code hfetch | unknown code _ _ hfetch | truncated code _ hfetch =>
    rw [walk_eq, Walker.walk_eq, hfetch]
    rfl
  | complete code i rest hfetch ih =>
    rw [walk_eq, Walker.walk_eq, hfetch]
    dsimp only [walker]
    rcases step poolSize capacity ip height i with e | after
    · rfl
    · exact ih (ip + i.size) after

theorem Machine.walk_result (constants : Array Value) (steps ip : Nat) (code : List UInt8)
    (stack : OperandStack) :
    ((walker constants).walk ip code stack).result = exec constants none steps ip code stack := by
  induction code using Instruction.fetch_induction generalizing steps ip stack with
  | ending code hfetch | unknown code _ _ hfetch | truncated code _ hfetch =>
    rw [exec_eq, Walker.walk_eq, hfetch]
    rfl
  | complete code i rest hfetch ih =>
    rw [exec_eq, Walker.walk_eq, hfetch]
    dsimp only [walker, spent]
    rcases perform constants i stack with ⟨after, _ | fault⟩
    · exact ih (steps + 1) (ip + i.size) after
    · rfl

/-- A package passes the check at the end of its code only. -/
theorem Check.endsWell_walker (poolSize capacity height : Nat) :
    (walker poolSize capacity).EndsWell (.ok height) := by
  refine ⟨fun ip i s htake => ?_, nofun, nofun⟩
  dsimp only [walker] at htake
  split at htake
  · cases htake
  · cases htake

/-- A run succeeds at the end of the code only. -/
theorem Machine.endsWell_walker (constants : Array Value) (last : OperandStack) :
    (walker constants).EndsWell ⟨last, none⟩ := by
  refine ⟨fun ip i s htake => ?_, nofun, nofun⟩
  dsimp only [walker] at htake
  split at htake
  · cases htake
  · cases htake

/-- The check of a package, with the instructions that it looked at. -/
def Package.checkWalk (package : Package) (capacity : Nat) : Walk (Except CheckError Nat) :=
  (Check.walker package.constants.size capacity).walk 0 package.code.toList 0

/-- A run of a package without a limit, with the instructions that it came to. -/
def Package.runWalk (package : Package) (stack : OperandStack) : Walk RunEnd :=
  (Machine.walker package.constants).walk 0 package.code.toList stack.clear

/-! ## What is recorded is what they did -/

theorem Laid.le_of_mem {code : Array UInt8} {ip stop : Nat} {entries : List (Nat × Instruction)}
    (h : Laid code ip entries stop) : ∀ entry ∈ entries, ip ≤ entry.1 := by
  induction h with
  | nil ip => exact fun entry hentry => absurd hentry List.not_mem_nil
  | cons hstands _ ih =>
      obtain ⟨-, hnext, -⟩ := fetch_of_stands hstands
      intro entry hentry
      rcases List.mem_cons.mp hentry with rfl | hlater
      · exact Nat.le_refl _
      · have hle := ih entry hlater
        omega

/-- **A check that refuses** has looked at every instruction up to the offset it reports. -/
theorem Check.seen_of_error {poolSize capacity ip stop height : Nat} {code : Array UInt8}
    {entries : List (Nat × Instruction)} {e : CheckError} (h : Laid code ip entries stop)
    (hstops : StopsAt code stop)
    (hrefused : walk poolSize capacity ip height (code.toList.drop ip) = .error e) :
    ((walker poolSize capacity).walk ip (code.toList.drop ip) height).seen
      = entries.filter fun entry => entry.1 ≤ e.offset := by
  induction h generalizing height with
  | nil ip =>
      have hinitial := (walker poolSize capacity).seen_initial (.nil ip) hstops height
      exact List.prefix_nil.mp hinitial
  | @cons ip next stop i entries hstands hlaid ih =>
      obtain ⟨hfetch, hnext, -⟩ := fetch_of_stands hstands
      have hle := le_offset_of_walk_error hrefused
      rw [Walker.walk_of_stands _ hstands, List.filter_cons, if_pos (decide_eq_true hle)]
      rw [walk_eq, hfetch] at hrefused
      dsimp only [walker] at hrefused ⊢
      rw [← hnext] at hrefused
      rcases hstep : step poolSize capacity ip height i with e' | after
      · -- what stands behind the refused instruction stands at higher offsets
        rw [hstep] at hrefused
        cases hrefused
        have hoffset := offset_of_step_error hstep
        have hpos := i.size_pos
        have hnone : (entries.filter fun entry => entry.1 ≤ e.offset) = [] := by
          refine List.filter_eq_nil_iff.mpr fun entry hentry => ?_
          have hlater := hlaid.le_of_mem entry hentry
          exact fun hlow => absurd (of_decide_eq_true hlow) (by omega)
        rw [hnone]
      · rw [hstep] at hrefused
        exact congrArg ((ip, i) :: ·) (ih hstops hrefused)

namespace Machine

variable {constants : Array Value}

/-- Behind the instructions that complete, the walk is the one from where they lead to. -/
theorem seen_of_completes {p q : Place} {n : Nat} (h : Completes constants p n q) (k : Nat) :
    ((walker constants).walk p.ip p.code p.stack).seen[n + k]?
      = ((walker constants).walk q.ip q.code q.stack).seen[k]? := by
  induction h with
  | refl => rw [Nat.zero_add]
  | step hfetch hperform _ ih =>
      rw [Walker.walk_eq, hfetch]
      dsimp only [walker]
      rw [hperform, Nat.add_right_comm]
      exact ih

/-- The walk from a place comes to the instruction there first. -/
theorem seen_head {q : Place} {i : Instruction} {rest : List UInt8}
    (h : Instruction.fetch q.code = .complete i rest) :
    ((walker constants).walk q.ip q.code q.stack).seen[0]? = some (q.ip, i) := by
  rw [Walker.walk_eq, h]
  dsimp only [walker]
  rcases perform constants i q.stack with ⟨after, _ | fault⟩ <;> rfl

/-- What a walk came to, it came to by instructions that complete. -/
theorem completes_of_seen {ip ip' k : Nat} {code : List UInt8} {stack : OperandStack}
    {i : Instruction} (h : ((walker constants).walk ip code stack).seen[k]? = some (ip', i)) :
    ∃ q rest, Completes constants ⟨ip, code, stack⟩ k q ∧ q.ip = ip' ∧
      Instruction.fetch q.code = .complete i rest := by
  induction code using Instruction.fetch_induction generalizing ip k stack with
  | ending code hfetch | unknown code _ _ hfetch | truncated code _ hfetch =>
    rw [Walker.walk_eq, hfetch] at h
    cases h
  | complete code j rest hfetch ih =>
    cases k with
    | zero =>
        have hhead := @seen_head constants ⟨ip, code, stack⟩ j rest hfetch
        obtain ⟨rfl, rfl⟩ := Prod.mk.inj (Option.some.inj (hhead.symm.trans h))
        exact ⟨⟨ip, code, stack⟩, rest, .refl _, rfl, hfetch⟩
    | succ k =>
        rw [Walker.walk_eq, hfetch] at h
        dsimp only [walker] at h
        rcases hperform : perform constants j stack with ⟨after, _ | fault⟩
        · rw [hperform] at h
          obtain ⟨q, rest', hcompletes, hip, hq⟩ := ih h
          exact ⟨q, rest', .step hfetch hperform hcompletes, hip, hq⟩
        · rw [hperform] at h
          cases h

end Machine

/-- **A run comes to an instruction** behind `k` others if and only if it stands where `k`
instructions lead to. -/
theorem Package.seen_runWalk_iff (package : Package) (stack : OperandStack) (k ip : Nat)
    (i : Instruction) :
    (package.runWalk stack).seen[k]? = some (ip, i) ↔
      ∃ values next, Semantics.Reaches package stack.capacity k ⟨ip, values⟩ ∧
        Semantics.Stands package.code ip i next := by
  constructor
  · intro h
    obtain ⟨q, rest, hcompletes, rfl, hfetch⟩ := Machine.completes_of_seen h
    obtain ⟨hcode, -, hreaches⟩ := Machine.reaches_of_completes_start hcompletes
    rw [hcode] at hfetch
    exact ⟨_, _, hreaches, (stands_of_fetch hfetch).1⟩
  · rintro ⟨values, next, hreaches, hstands⟩
    obtain ⟨q, hcompletes, rfl, -⟩ := Machine.completes_of_reaches hreaches
    obtain ⟨hcode, -, -⟩ := Machine.reaches_of_completes_start hcompletes
    obtain ⟨hfetch, -, -⟩ := fetch_of_stands hstands
    rw [← hcode] at hfetch
    exact (Machine.seen_of_completes hcompletes 0).trans (Machine.seen_head hfetch)

/-! ## How many instructions a run takes -/

/-- A run that succeeds takes every instruction, so a limit lets it succeed if it allows as many. -/
theorem Machine.exec_limit {code : Array UInt8} {constants : Array Value} {ip stop : Nat}
    {entries : List (Nat × Instruction)} (h : Laid code ip entries stop)
    (hstops : StopsAt code stop) {steps most : Nat} {stack : OperandStack} (hsteps : steps ≤ most)
    (hrun : (exec constants none steps ip (code.toList.drop ip) stack).fault = none) :
    (exec constants (some most) steps ip (code.toList.drop ip) stack).fault = none ↔
      steps + entries.length ≤ most := by
  induction h generalizing steps stack with
  | nil ip =>
      rw [exec_eq] at hrun ⊢
      rcases fetch_of_stopsAt hstops with ⟨hfetch, -⟩ | ⟨-, ⟨byte, rest, hfetch⟩ | ⟨op, hfetch⟩⟩
      · rw [hfetch]
        exact iff_of_true rfl hsteps
      · rw [hfetch] at hrun
        cases hrun
      · rw [hfetch] at hrun
        cases hrun
  | @cons ip next stop i entries hstands _ ih =>
      obtain ⟨hfetch, hnext, -⟩ := fetch_of_stands hstands
      rw [exec_eq, hfetch] at hrun ⊢
      dsimp only [spent] at hrun ⊢
      rw [← hnext] at hrun ⊢
      rw [List.length_cons]
      by_cases hspent : most ≤ steps
      · -- the limit is reached in front of the instruction
        rw [if_pos hspent]
        exact iff_of_false nofun (by omega)
      · rw [if_neg hspent]
        dsimp only
        rcases hperform : perform constants i stack with ⟨after, _ | fault⟩
        · rw [hperform] at hrun
          have hrest := ih hstops (by omega) hrun
          dsimp only
          rw [hrest]
          omega
        · rw [hperform] at hrun
          cases hrun

/-! ## The statistics -/

/-- The count goes on where the next instruction is. -/
theorem countFrom_eq {size ip : Nat} {code : List UInt8} (hsize : size = ip + code.length)
    (counts : List (Opcode × Nat)) :
    countFrom size ip code counts =
      match Instruction.fetch code with
      | .complete i rest => countFrom size (ip + i.size) rest (countOne i.opcode counts)
      | .ending | .unknown .. | .truncated _ => counts := by
  cases code with
  | nil => rw [countFrom, Instruction.fetch]
  | cons b rest =>
      rw [countFrom]
      rcases hop : Opcode.ofByte? b with _ | op
      · rw [Instruction.fetch_unknown hop]
      · rw [Instruction.fetch_known hop]
        rw [List.length_cons] at hsize
        dsimp only
        by_cases hshort : rest.length < op.operandLength
        · rw [if_pos hshort, if_pos (by omega)]
        · rw [if_neg hshort, if_neg (by omega)]
          dsimp only
          rw [Instruction.size, Instruction.opcode_ofOperands, Nat.add_assoc]

theorem countOne_map (op : Opcode) (ops : List Opcode) (n : Opcode → Nat) :
    countOne op (ops.map fun o => (o, n o)) =
      ops.map fun o => (o, n o + if op = o then 1 else 0) := by
  rw [countOne, List.map_map]
  refine List.map_congr_left fun o _ => ?_
  by_cases h : o = op
  · subst h
    rw [if_pos rfl]
    exact if_pos rfl
  · rw [if_neg (Ne.symm h)]
    exact if_neg h

/-- **The count** adds up the instructions of each opcode. -/
theorem countFrom_map {size ip : Nat} {code : List UInt8} (hsize : size = ip + code.length)
    (ops : List Opcode) (n : Opcode → Nat) :
    countFrom size ip code (ops.map fun op => (op, n op)) =
      ops.map fun op =>
        (op, n op + (Instruction.decodeFrom ip code []).countP fun e => e.2.opcode == op) := by
  induction code using Instruction.fetch_induction generalizing ip n with
  | ending code hfetch | unknown code _ _ hfetch | truncated code _ hfetch =>
    rw [countFrom_eq hsize, Instruction.decodeFrom_eq, hfetch]
    rfl
  | complete code i rest hfetch ih =>
    have hlength := Instruction.length_of_fetch_complete hfetch
    rw [countFrom_eq hsize, Instruction.decodeFrom_eq, hfetch]
    dsimp only
    rw [countOne_map, ih (by omega), Instruction.decodeFrom_append _ _ [_]]
    refine List.map_congr_left fun op _ => ?_
    rw [List.reverse_singleton, List.singleton_append, List.countP_cons]
    simp only [beq_iff_eq, Nat.add_assoc, Nat.add_comm]

/-- The counts are those of the instructions that can be read. -/
theorem opcodeCounts_eq (code : List UInt8) :
    opcodeCounts code =
      (Opcode.byName.map fun op =>
        (op, (Instruction.decode code).countP fun entry => entry.2.opcode == op)).filter
          fun entry => entry.2 ≠ 0 := by
  rw [opcodeCounts, countFrom_map (Nat.zero_add _).symm]
  simp only [Nat.zero_add]
  rfl

theorem Opcode.mem_byName (op : Opcode) : op ∈ byName := by
  rcases op with _ | _ | _ <;> decide

/-- The statistics hold the number of instructions of each name that there is one of. -/
theorem mem_opcodeCounts_iff {code : List UInt8} {name : String} {n : Nat} :
    (∃ op, (op, n) ∈ opcodeCounts code ∧ op.name = name) ↔
      n ≠ 0 ∧ n = (Instruction.decode code).countP fun entry => entry.2.opcode.name == name := by
  have hcount : ∀ op : Opcode, (fun entry : Nat × Instruction => entry.2.opcode.name == op.name) =
      fun entry => entry.2.opcode == op := by
    intro op
    funext entry
    rw [Bool.eq_iff_iff, beq_iff_eq, beq_iff_eq]
    exact ⟨Opcode.name_injective, congrArg Opcode.name⟩
  rw [opcodeCounts_eq]
  constructor
  · rintro ⟨op, hmem, rfl⟩
    obtain ⟨hlisted, hpositive⟩ := List.mem_filter.mp hmem
    obtain ⟨op', -, heq⟩ := List.mem_map.mp hlisted
    obtain ⟨rfl, rfl⟩ := Prod.mk.inj heq
    refine ⟨of_decide_eq_true hpositive, ?_⟩
    rw [hcount]
  · rintro ⟨hpositive, hn⟩
    -- a name that occurs is the name of an opcode
    obtain ⟨entry, -, hname⟩ := List.countP_pos_iff.mp (hn ▸ Nat.pos_of_ne_zero hpositive)
    obtain rfl := beq_iff_eq.mp hname
    refine ⟨entry.2.opcode, List.mem_filter.mpr ⟨?_, decide_eq_true hpositive⟩, rfl⟩
    refine List.mem_map.mpr ⟨entry.2.opcode, Opcode.mem_byName _, ?_⟩
    rw [hn, hcount]

/-! ## They agree -/

/-- The lines above the first error are those of the instructions. -/
theorem lines_of_decodes {code : Array UInt8} {entries : List (Nat × Instruction)} {stop : Nat}
    (h : Decodes code entries stop) :
    (Text.lines (disassemble code.toList)).takeWhile (fun l => ¬ IsErrorLine l)
        = entries.map (fun entry => entry.2.line entry.1) ∧
      ((∃ l ∈ Text.lines (disassemble code.toList), IsErrorLine l) ↔ stop ≠ code.size) := by
  obtain ⟨more, hrows, hmore⟩ := ListingRow.ofCode_of_decodes h
  have hlines : Text.lines (disassemble code.toList) =
      entries.map (fun entry => entry.2.line entry.1) ++ more.map ListingRow.line := by
    rw [lines_disassemble, hrows, List.map_append, List.map_map]
    rfl
  have hplain : ∀ l ∈ entries.map (fun entry => entry.2.line entry.1), ¬ IsErrorLine l := by
    intro l hl
    obtain ⟨entry, -, rfl⟩ := List.mem_map.mp hl
    exact not_isErrorLine_line entry.1 entry.2
  rw [hlines, List.takeWhile_append_of_pos fun l hl => decide_eq_true (hplain l hl)]
  rcases hmore with ⟨rfl, hend⟩ | ⟨row, rows, rfl, herror, hend⟩
  · refine ⟨List.append_nil _, iff_of_false ?_ (not_not_intro hend)⟩
    rintro ⟨l, hl, herror⟩
    exact hplain l (by simpa using hl) herror
  · have hrow : IsErrorLine row.line := row.isErrorLine_iff.mpr herror
    refine ⟨?_, iff_of_true ⟨row.line, by simp, hrow⟩ hend⟩
    rw [List.map_cons, List.takeWhile_cons_of_neg (by simpa using hrow), List.append_nil]

/--
**Everyone sees the same instructions.**

For every package there is one list of instructions with their offsets that stand one behind the
other in the code, from its beginning to its end or to where no instruction stands. The statistics
count the names in this list. The lines of the listing above the first error are the list, and there
is an error if and only if the list does not take up the whole code. The instructions that the check
looks at, and those that a run without a limit comes to, are a beginning of the list; they are all
of it, and it is all of the code, if the package passes or the run succeeds. A check that refuses
has looked at those up to the offset that it reports, and a run comes to those that stand where its
instructions lead to. And a run that succeeds without a limit succeeds under one if and only if that
allows as many steps as the list is long.
-/
theorem Package.boundaries_agree (package : Package) :
    ∃ entries stop, Decodes package.code entries stop ∧
      (∀ entries' stop', Decodes package.code entries' stop' →
        entries' = entries ∧ stop' = stop) ∧
      (∀ name n, (∃ op, (op, n) ∈ opcodeCounts package.code.toList ∧ op.name = name) ↔
        n ≠ 0 ∧ n = entries.countP fun entry => entry.2.opcode.name == name) ∧
      ((Text.lines (disassemble package.code.toList)).takeWhile (fun l => ¬ IsErrorLine l)
          = entries.map (fun entry => entry.2.line entry.1)
        ∧ ((∃ l ∈ Text.lines (disassemble package.code.toList), IsErrorLine l)
          ↔ stop ≠ package.code.size)) ∧
      (∀ capacity,
        (package.checkWalk capacity).result = package.check capacity
          ∧ (package.checkWalk capacity).seen <+: entries
          ∧ (∀ height, package.check capacity = .ok height →
            (package.checkWalk capacity).seen = entries ∧ stop = package.code.size)
          ∧ ∀ e, package.check capacity = .error e →
            (package.checkWalk capacity).seen
              = entries.filter fun entry => entry.1 ≤ e.offset) ∧
      (∀ stack,
        (package.runWalk stack).result = package.run none stack
          ∧ (package.runWalk stack).seen <+: entries
          ∧ (∀ k ip i, (package.runWalk stack).seen[k]? = some (ip, i) ↔
            ∃ values next, Semantics.Reaches package stack.capacity k ⟨ip, values⟩ ∧
              Semantics.Stands package.code ip i next)
          ∧ ((package.run none stack).fault = none →
            (package.runWalk stack).seen = entries ∧ stop = package.code.size
              ∧ ∀ most, (package.run (some most) stack).fault = none ↔ entries.length ≤ most)) := by
  obtain ⟨entries, stop, hdecodes⟩ := exists_decodes package.code
  have hlaid := hdecodes.laid
  have hstops := hdecodes.stops
  have hcheck : ∀ capacity,
      (package.checkWalk capacity).result = package.check capacity := fun capacity =>
    Check.walk_result _ _ _ _ _
  have hrun : ∀ stack, (package.runWalk stack).result = package.run none stack := fun stack =>
    Machine.walk_result _ 0 _ _ _
  refine ⟨entries, stop, hdecodes, fun entries' stop' h => hdecodes.unique h, fun name n => ?_,
    lines_of_decodes hdecodes, fun capacity => ⟨hcheck capacity, ?_, fun height hok => ?_,
      fun e hrefused => Check.seen_of_error hlaid hstops hrefused⟩,
    fun stack => ⟨hrun stack, ?_, package.seen_runWalk_iff stack, fun hnone => ?_⟩⟩
  · rw [mem_opcodeCounts_iff, hdecodes.decode_eq]
  · exact (Check.walker _ capacity).seen_initial hlaid hstops 0
  · refine (Check.walker _ capacity).seen_all hlaid hstops ?_
    have hresult : (package.checkWalk capacity).result = .ok height := (hcheck capacity).trans hok
    exact hresult ▸ Check.endsWell_walker _ capacity height
  · exact (Machine.walker _).seen_initial hlaid hstops stack.clear
  · have hlimit : ∀ most, (package.run (some most) stack).fault = none ↔ entries.length ≤ most := by
      intro most
      have h := Machine.exec_limit hlaid hstops (Nat.zero_le most) hnone
      rwa [Nat.zero_add] at h
    have hwell : (Machine.walker package.constants).EndsWell (package.runWalk stack).result := by
      rcases hend : package.run none stack with ⟨last, fault⟩
      rw [hend] at hnone
      obtain rfl : fault = none := hnone
      rw [hrun, hend]
      exact Machine.endsWell_walker _ last
    obtain ⟨hseen, hend⟩ := (Machine.walker _).seen_all hlaid hstops hwell
    exact ⟨hseen, hend, hlimit⟩

end ExprMachine
