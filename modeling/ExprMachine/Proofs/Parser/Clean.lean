import ExprMachine.Parser.Outcome

/-!
# Readings without a report

What a construct promises, it promises for readings that reported nothing. `Parsed.Clean` states
such a promise about the node and the tokens behind it; `Parsed.CleanSome` is the same for a
construct that may fail, and includes that it did not. Since reports are only ever added, a
reading made of two keeps a promise as soon as the second part keeps it wherever the first has kept
its own.
-/

namespace ExprMachine

namespace Parsed

variable {α β : Type} {m n : Nat}

/-- If nothing was reported, the node and the tokens behind it are as promised. -/
def Clean (p : Parsed α n) (Q : α → List Token → Prop) : Prop :=
  p.outcome.diagnostics = [] → Q p.outcome.value p.outcome.rest

/-- If nothing was reported, there is a node, and it and the tokens behind it are as promised. -/
def CleanSome (p : Attempt α n) (Q : α → List Token → Prop) : Prop :=
  p.Clean fun value? rest => ∃ value, value? = some value ∧ Q value rest

theorem clean_done {value : α} {rest : List Token} {Q : α → List Token → Prop}
    (h : Q value rest) : (done value rest).Clean Q :=
  fun _ => h

theorem cleanSome_done {value : α} {rest : List Token} {Q : α → List Token → Prop}
    (h : Q value rest) : (done (some value) rest).CleanSome Q :=
  fun _ => ⟨value, rfl, h⟩

/-- A report excuses from every promise. -/
theorem clean_report {value : α} {rest : List Token} {d : Diagnostic}
    {Q : α → List Token → Prop} : (report value rest d).Clean Q := by
  intro h
  cases h

theorem Clean.mono {p : Parsed α n} {Q R : α → List Token → Prop} (h : p.Clean Q)
    (hQR : ∀ value rest, Q value rest → R value rest) : p.Clean R :=
  fun hd => hQR _ _ (h hd)

theorem CleanSome.mono {p : Attempt α n} {Q R : α → List Token → Prop} (h : p.CleanSome Q)
    (hQR : ∀ value rest, Q value rest → R value rest) : p.CleanSome R :=
  Clean.mono h fun _ rest ⟨value, hv, hQ⟩ => ⟨value, hv, hQR value rest hQ⟩

theorem Clean.weaken {p : Parsed α m} {hmn : m ≤ n} {Q : α → List Token → Prop}
    (h : p.Clean Q) : (p.weaken hmn).Clean Q := h

theorem CleanSome.weaken {p : Attempt α m} {hmn : m ≤ n} {Q : α → List Token → Prop}
    (h : p.CleanSome Q) : (Parsed.weaken p hmn).CleanSome Q := h

theorem Clean.map {p : Parsed α n} {f : α → β} {Q : β → List Token → Prop}
    (h : p.Clean fun value rest => Q (f value) rest) : (p.map f).Clean Q := h

theorem Clean.mapSome {p : Parsed α n} {f : α → β} {Q : β → List Token → Prop}
    (h : p.Clean fun value rest => Q (f value) rest) :
    CleanSome (p.map fun value => some (f value)) Q :=
  fun hd => ⟨_, rfl, h hd⟩

theorem CleanSome.mapSome {p : Attempt α n} {f : α → β} {Q : β → List Token → Prop}
    (h : p.CleanSome fun value rest => Q (f value) rest) :
    CleanSome (Parsed.map (Option.map f) p) Q := by
  intro hd
  obtain ⟨value, hv, hQ⟩ := h hd
  exact ⟨f value, by rw [Parsed.map, hv]; rfl, hQ⟩

/-- The second part may rely on what the first one promised. -/
theorem Clean.bind {p : Parsed α n}
    {k : α → (rest : List Token) → rest.length ≤ n → Parsed β rest.length}
    {P : α → List Token → Prop} {Q : β → List Token → Prop} (h : p.Clean P)
    (hk : ∀ value rest hle, P value rest → (k value rest hle).Clean Q) : (p.bind k).Clean Q := by
  intro hd
  obtain ⟨hp, hq⟩ := List.append_eq_nil_iff.mp hd
  exact hk _ _ _ (h hp) hq

/-- A first part that keeps its promise has a node to go on with. -/
theorem CleanSome.andThen {p : Attempt α n}
    {k : α → (rest : List Token) → rest.length ≤ n → Attempt β rest.length}
    {P : α → List Token → Prop} {Q : β → List Token → Prop} (h : p.CleanSome P)
    (hk : ∀ value rest hle, P value rest → (k value rest hle).CleanSome Q) :
    (p.andThen k).CleanSome Q := by
  refine Clean.bind h ?_
  rintro _ rest hle ⟨value, rfl, hP⟩
  exact hk value rest hle hP

/-- A reading that gave no node has reported why. -/
theorem CleanSome.diagnostics_ne_nil {p : Attempt α n} {Q : α → List Token → Prop}
    (h : p.CleanSome Q) (hnone : p.outcome.value = none) : p.outcome.diagnostics ≠ [] := by
  intro hd
  obtain ⟨value, hv, -⟩ := h hd
  rw [hnone] at hv
  cases hv

end Parsed

namespace Parser

theorem eq_cons_of_take? {kind : Token.Kind} {ts rest : List Token}
    {hlt : rest.length < ts.length} (h : take? kind ts = some ⟨rest, hlt⟩) :
    ∃ t, t.kind = kind ∧ ts = t :: rest := by
  unfold take? at h
  split at h
  · cases h
  · next t _ =>
    split at h
    · next hkind =>
      cases h
      exact ⟨t, hkind, rfl⟩
    · cases h

theorem expect_clean (eof : Position) (kind : Token.Kind) (ts : List Token) :
    (expect eof kind ts).CleanSome fun t rest => t.kind = kind ∧ ts = t :: rest := by
  unfold expect
  split
  · exact Parsed.clean_report
  · next t rest =>
    split
    · next hkind => exact Parsed.CleanSome.weaken (Parsed.cleanSome_done ⟨hkind, rfl⟩)
    · exact Parsed.clean_report

end Parser

end ExprMachine
