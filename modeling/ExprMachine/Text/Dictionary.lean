/-!
# Dictionaries

Values filed under texts: a list of entries in strictly increasing order of their keys, compared
character by character (which is also the order of their UTF-8 bytes). Every operation keeps that
order, so a dictionary has one form and lists its keys in one order.
-/

namespace ExprMachine.Dictionary

variable {α : Type}

/-- The entries are in strictly increasing order of their keys. -/
def Ordered (entries : List (String × α)) : Prop := entries.Pairwise fun a b => a.1 < b.1

/-- Files `value` under `key`, in place of what was there. -/
def insert (key : String) (value : α) : List (String × α) → List (String × α)
  | [] => [(key, value)]
  | (k, v) :: rest =>
    if key < k then (key, value) :: (k, v) :: rest
    else if key = k then (key, value) :: rest
    else (k, v) :: insert key value rest

/-- What is filed under `key`. -/
def find? (key : String) (entries : List (String × α)) : Option α := entries.lookup key

/-- Files the entries one after the other; of two with one key the later stays. -/
def ofList (entries : List (String × α)) : List (String × α) :=
  entries.foldl (fun filed entry => insert entry.1 entry.2 filed) []

theorem find?_insert_self (key : String) (value : α) (entries : List (String × α)) :
    find? key (insert key value entries) = some value := by
  unfold find?
  induction entries with
  | nil => exact List.lookup_cons_self
  | cons entry rest ih =>
      rw [insert]
      split
      · exact List.lookup_cons_self
      · split
        · exact List.lookup_cons_self
        · next hne => rw [List.lookup_cons, beq_false_of_ne hne, ih]

theorem find?_insert_of_ne {key other : String} (h : other ≠ key) (value : α)
    (entries : List (String × α)) :
    find? other (insert key value entries) = find? other entries := by
  have hskip : ∀ rest : List (String × α),
      ((key, value) :: rest).lookup other = rest.lookup other :=
    fun rest => by rw [List.lookup_cons, beq_false_of_ne h]
  unfold find?
  induction entries with
  | nil => exact hskip []
  | cons entry rest ih =>
      rw [insert]
      split
      · exact hskip _
      · split
        · next heq =>
          subst heq
          rw [hskip, List.lookup_cons, beq_false_of_ne h]
        · rw [List.lookup_cons, List.lookup_cons, ih]

section Order

variable {key : String} {value : α} {entries : List (String × α)}

theorem length_insert_le (key : String) (value : α) (entries : List (String × α)) :
    (insert key value entries).length ≤ entries.length + 1 := by
  induction entries with
  | nil => exact Nat.le_refl 1
  | cons entry entries ih =>
      rw [insert]
      split
      · exact Nat.le_refl _
      · split
        · exact Nat.le_succ _
        · exact Nat.succ_le_succ ih

theorem mem_insert {entry : String × α} (h : entry ∈ insert key value entries) :
    entry = (key, value) ∨ entry ∈ entries := by
  induction entries with
  | nil => exact .inl (List.mem_singleton.mp h)
  | cons first entries ih =>
      rw [insert] at h
      split at h
      · exact List.mem_cons.mp h
      · split at h
        · exact (List.mem_cons.mp h).imp_right (List.mem_cons_of_mem _)
        · rcases List.mem_cons.mp h with hfirst | hrest
          · exact .inr (hfirst ▸ List.mem_cons_self)
          · exact (ih hrest).imp_right (List.mem_cons_of_mem _)

/-- Filing keeps the entries in order of their keys. -/
theorem ordered_insert (key : String) (value : α) (h : Ordered entries) :
    Ordered (insert key value entries) := by
  induction entries with
  | nil => exact List.pairwise_singleton _ _
  | cons first entries ih =>
      obtain ⟨hfirst, hentries⟩ := List.pairwise_cons.mp h
      rw [insert]
      split
      · next hlt =>
        refine List.pairwise_cons.mpr ⟨List.forall_mem_cons.mpr ⟨hlt, fun e he => ?_⟩, h⟩
        exact String.lt_trans hlt (hfirst e he)
      · next hge =>
        split
        · next heq => exact List.pairwise_cons.mpr ⟨heq ▸ hfirst, hentries⟩
        · next hne =>
          refine List.pairwise_cons.mpr ⟨fun e he => ?_, ih hentries⟩
          rcases mem_insert he with rfl | he
          · exact Std.lt_of_le_of_ne (String.not_lt.mp hge) (Ne.symm hne)
          · exact hfirst e he

theorem length_foldl_insert_le (filed entries : List (String × α)) :
    (entries.foldl (fun filed entry => insert entry.1 entry.2 filed) filed).length
      ≤ filed.length + entries.length := by
  induction entries generalizing filed with
  | nil => exact Nat.le_refl _
  | cons entry entries ih =>
      have hfirst := length_insert_le entry.1 entry.2 filed
      have hrest := ih (insert entry.1 entry.2 filed)
      rw [List.foldl_cons, List.length_cons]
      omega

theorem length_ofList_le (entries : List (String × α)) :
    (ofList entries).length ≤ entries.length := by
  have hle := length_foldl_insert_le [] entries
  rwa [List.length_nil, Nat.zero_add] at hle

theorem mem_of_mem_ofList {entry : String × α} (h : entry ∈ ofList entries) : entry ∈ entries := by
  have hsubset : ∀ e ∈ ofList entries, e ∈ entries := by
    refine List.foldlRecOn (motive := fun filed => ∀ e ∈ filed, e ∈ entries) entries _ ?_ ?_
    · exact fun e he => absurd he List.not_mem_nil
    · intro filed hfiled first hfirst e he
      rcases mem_insert he with rfl | he
      · exact hfirst
      · exact hfiled e he
  exact hsubset entry h

theorem ordered_ofList (entries : List (String × α)) : Ordered (ofList entries) :=
  List.foldlRecOn entries _ List.Pairwise.nil fun _ h _ _ => ordered_insert _ _ h

end Order

end ExprMachine.Dictionary
