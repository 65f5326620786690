import ExprMachine.Bytecode.Listing
import ExprMachine.Bytecode.Statistics
import ExprMachine.Proofs.Machine.Checked
import ExprMachine.Proofs.Machine.Refinement

/-!
# Where the instructions of some code stand

Nothing in the code marks where an instruction begins. That is settled from the front: the first one
stands at offset 0, and the next one stands where it ends. `Decodes` says which instructions these
are, and at which offset they stop, without walking: each entry is an instruction that stands at its
offset, and at the last offset the code ends or holds no instruction.

There is exactly one answer for every code (`exists_decodes`, `Decodes.unique`). Everyone who goes
along the code takes the entries off it one by one, so what they do with the code is an induction on
`Laid`; the decoder and the listing are treated here.
-/

namespace ExprMachine

open Semantics

/-- `Laid code ip entries stop`: from `ip` up to `stop` the code is the instructions of `entries`,
one directly behind the other and each with its offset. -/
inductive Laid (code : Array UInt8) : Nat → List (Nat × Instruction) → Nat → Prop where
  | nil (ip : Nat) : Laid code ip [] ip
  | cons {ip next stop : Nat} {i : Instruction} {entries : List (Nat × Instruction)} :
      Stands code ip i next → Laid code next entries stop → Laid code ip ((ip, i) :: entries) stop

/-- No further instruction stands at the offset: the code ends there, or goes on with something
else. -/
def StopsAt (code : Array UInt8) (stop : Nat) : Prop :=
  stop = code.size ∨ ∃ fault, Malformed code stop fault

/-- `Decodes code entries stop`: the instructions at the front of the code with their offsets, and
the offset behind the last of them. -/
structure Decodes (code : Array UInt8) (entries : List (Nat × Instruction)) (stop : Nat) : Prop where
  laid : Laid code 0 entries stop
  stops : StopsAt code stop

variable {code : Array UInt8} {ip stop : Nat} {entries : List (Nat × Instruction)}

/-! ## There is one answer -/

/-- What is malformed is still code. -/
theorem lt_of_malformed {fault : Fault} (h : Malformed code ip fault) : ip < code.size := by
  cases h with
  | unknown hbyte => exact (Array.getElem?_eq_some_iff.mp hbyte).1
  | truncated hop _ => exact (Array.getElem?_eq_some_iff.mp hop).1

/-- What stands where the instructions stop. -/
theorem fetch_of_stopsAt (h : StopsAt code stop) :
    (Instruction.fetch (code.toList.drop stop) = .ending ∧ stop = code.size) ∨
      stop < code.size ∧
        ((∃ byte rest, Instruction.fetch (code.toList.drop stop) = .unknown byte rest) ∨
          ∃ op, Instruction.fetch (code.toList.drop stop) = .truncated op) := by
  rcases h with rfl | ⟨fault, hmal⟩
  · refine .inl ⟨?_, rfl⟩
    rw [List.drop_eq_nil_of_le (Nat.le_of_eq Array.length_toList)]
    rfl
  · refine .inr ⟨lt_of_malformed hmal, ?_⟩
    rcases fetch_of_malformed hmal with ⟨byte, rest, hunknown, -⟩ | ⟨htruncated, -⟩
    · exact .inl ⟨byte, rest, hunknown⟩
    · exact .inr ⟨_, htruncated⟩

theorem not_stands_of_stopsAt (h : StopsAt code stop) {i : Instruction} {next : Nat} :
    ¬ Stands code stop i next := by
  intro hstands
  have hcomplete := (fetch_of_stands hstands).1
  rcases fetch_of_stopsAt h with ⟨hfetch, -⟩ | ⟨-, ⟨byte, rest, hfetch⟩ | ⟨op, hfetch⟩⟩
  · cases hfetch.symm.trans hcomplete
  · cases hfetch.symm.trans hcomplete
  · cases hfetch.symm.trans hcomplete

/-- An offset holds one instruction at most. -/
theorem stands_unique {i j : Instruction} {next next' : Nat} (h : Stands code ip i next)
    (h' : Stands code ip j next') : i = j ∧ next = next' := by
  obtain ⟨hfetch, hnext, -⟩ := fetch_of_stands h
  obtain ⟨hfetch', hnext', -⟩ := fetch_of_stands h'
  have hsame : i = j := (Fetch.complete.inj (hfetch.symm.trans hfetch')).1
  exact ⟨hsame, by rw [hnext, hnext', hsame]⟩

theorem Laid.unique {entries' : List (Nat × Instruction)} {stop' : Nat}
    (h : Laid code ip entries stop) (hstops : StopsAt code stop) (h' : Laid code ip entries' stop')
    (hstops' : StopsAt code stop') : entries' = entries ∧ stop' = stop := by
  induction h generalizing entries' with
  | nil ip =>
      cases h' with
      | nil => exact ⟨rfl, rfl⟩
      | cons hstands _ => exact absurd hstands (not_stands_of_stopsAt hstops)
  | cons hstands _ ih =>
      cases h' with
      | nil => exact absurd hstands (not_stands_of_stopsAt hstops')
      | cons hstands' hlaid' =>
          obtain ⟨rfl, rfl⟩ := stands_unique hstands hstands'
          obtain ⟨rfl, rfl⟩ := ih hstops hlaid'
          exact ⟨rfl, rfl⟩

theorem Decodes.unique {entries' : List (Nat × Instruction)} {stop' : Nat}
    (h : Decodes code entries stop) (h' : Decodes code entries' stop') :
    entries' = entries ∧ stop' = stop :=
  h.laid.unique h.stops h'.laid h'.stops

theorem exists_laid (hle : ip ≤ code.size) :
    ∃ entries stop, Laid code ip entries stop ∧ StopsAt code stop := by
  -- on the code that is left
  induction hleft : code.size - ip using Nat.strongRecOn generalizing ip with
  | ind left ih =>
    rcases ends_or_stands_or_malformed code ip with hend | ⟨i, next, hstands⟩ | hmal
    · exact ⟨[], ip, .nil ip, .inl (Nat.le_antisymm hle hend)⟩
    · obtain ⟨-, hnext, hle'⟩ := fetch_of_stands hstands
      have hpos := i.size_pos
      obtain ⟨entries, stop, hlaid, hstops⟩ := ih (code.size - next) (by omega) hle' rfl
      exact ⟨(ip, i) :: entries, stop, .cons hstands hlaid, hstops⟩
    · exact ⟨[], ip, .nil ip, .inr hmal⟩

/-- **Every code decodes**, whatever its bytes are. -/
theorem exists_decodes (code : Array UInt8) : ∃ entries stop, Decodes code entries stop := by
  obtain ⟨entries, stop, hlaid, hstops⟩ := exists_laid (Nat.zero_le code.size)
  exact ⟨entries, stop, hlaid, hstops⟩

/-! ## The decoder -/

theorem decodeFrom_of_laid (h : Laid code ip entries stop) (hstops : StopsAt code stop) :
    Instruction.decodeFrom ip (code.toList.drop ip) [] = entries := by
  induction h with
  | nil ip =>
      rw [Instruction.decodeFrom_eq]
      rcases fetch_of_stopsAt hstops with ⟨hfetch, -⟩ | ⟨-, ⟨byte, rest, hfetch⟩ | ⟨op, hfetch⟩⟩
      · rw [hfetch]
        rfl
      · rw [hfetch]
        rfl
      · rw [hfetch]
        rfl
  | @cons ip next stop i entries hstands _ ih =>
      obtain ⟨hfetch, hnext, -⟩ := fetch_of_stands hstands
      rw [Instruction.decodeFrom_eq, hfetch]
      dsimp only
      rw [Instruction.decodeFrom_append, ← hnext, ih hstops]
      rfl

/-- The decoder finds the instructions. -/
theorem Decodes.decode_eq (h : Decodes code entries stop) :
    Instruction.decode code.toList = entries :=
  decodeFrom_of_laid h.laid h.stops

/-! ## The listing -/

namespace ListingRow

theorem ofCodeFrom_eq (ip : Nat) (code : List UInt8) (seen : List ListingRow) :
    ofCodeFrom ip code seen =
      match Instruction.fetch code with
      | .ending => seen.reverse
      | .unknown byte rest => ofCodeFrom (ip + 1) rest (.unknown byte :: seen)
      | .truncated op => (.truncated op :: seen).reverse
      | .complete i rest => ofCodeFrom (ip + i.size) rest (.instruction ip i :: seen) := by
  rw [ofCodeFrom]
  split <;> rename_i h <;> rw [h]

/-- The rows above come first. -/
theorem ofCodeFrom_append (ip : Nat) (code : List UInt8) (seen : List ListingRow) :
    ofCodeFrom ip code seen = seen.reverse ++ ofCodeFrom ip code [] := by
  induction code using Instruction.fetch_induction generalizing ip seen with
  | ending code hfetch =>
    rw [ofCodeFrom_eq, ofCodeFrom_eq ip code [], hfetch]
    exact (List.append_nil _).symm
  | unknown code byte rest hfetch ih =>
    rw [ofCodeFrom_eq, ofCodeFrom_eq ip code [], hfetch]
    dsimp only
    rw [ih, ih _ [.unknown byte], List.reverse_cons, List.append_assoc, List.reverse_singleton]
  | truncated code op hfetch =>
    rw [ofCodeFrom_eq, ofCodeFrom_eq ip code [], hfetch]
    exact List.reverse_cons
  | complete code i rest hfetch ih =>
    rw [ofCodeFrom_eq, ofCodeFrom_eq ip code [], hfetch]
    dsimp only
    rw [ih, ih _ [.instruction ip i], List.reverse_cons, List.append_assoc,
      List.reverse_singleton]

/-- The row says that something is wrong with the code. -/
def IsError : ListingRow → Prop
  | instruction .. => False
  | unknown _ | truncated _ => True

theorem ofCodeFrom_of_laid (h : Laid code ip entries stop) :
    ofCodeFrom ip (code.toList.drop ip) [] =
      entries.map (fun entry => instruction entry.1 entry.2) ++
        ofCodeFrom stop (code.toList.drop stop) [] := by
  induction h with
  | nil ip => rfl
  | @cons ip next stop i entries hstands _ ih =>
      obtain ⟨hfetch, hnext, -⟩ := fetch_of_stands hstands
      rw [ofCodeFrom_eq, hfetch]
      dsimp only
      rw [ofCodeFrom_append, ← hnext, ih]
      rfl

/-- Behind the instructions there is an error or nothing. -/
theorem ofCodeFrom_of_stopsAt (h : StopsAt code stop) :
    (ofCodeFrom stop (code.toList.drop stop) [] = [] ∧ stop = code.size) ∨
      ∃ row rows, ofCodeFrom stop (code.toList.drop stop) [] = row :: rows ∧ row.IsError ∧
        stop ≠ code.size := by
  rw [ofCodeFrom_eq]
  rcases fetch_of_stopsAt h with ⟨hfetch, hend⟩ | ⟨hlt, ⟨byte, rest, hfetch⟩ | ⟨op, hfetch⟩⟩
  · rw [hfetch]
    exact .inl ⟨rfl, hend⟩
  · rw [hfetch]
    dsimp only
    rw [ofCodeFrom_append]
    exact .inr ⟨.unknown byte, _, rfl, trivial, Nat.ne_of_lt hlt⟩
  · rw [hfetch]
    exact .inr ⟨.truncated op, [], rfl, trivial, Nat.ne_of_lt hlt⟩

/-- **The listing** has a row for each instruction, and then an error unless the code ends there. -/
theorem ofCode_of_decodes (h : Decodes code entries stop) :
    ∃ more, ofCode code.toList = entries.map (fun entry => instruction entry.1 entry.2) ++ more ∧
      ((more = [] ∧ stop = code.size) ∨
        ∃ row rows, more = row :: rows ∧ row.IsError ∧ stop ≠ code.size) :=
  ⟨_, ofCodeFrom_of_laid h.laid, ofCodeFrom_of_stopsAt h.stops⟩

end ListingRow

end ExprMachine
