import ExprMachine.Cli.Directory
import Mathlib.Data.List.TakeWhile

/-!
# Files and their names

A path leads to a file by its last part, so another extension on the path is another extension on
that part, and the folders in front of it stay (`Path.extension?_withExtension`).

A file that was written is read where it was written, and nothing else is touched. The second needs
an argument: following a path asks for the folders on the way, and a file that is new there is none
of them (`follow_insert`).
-/

namespace ExprMachine

namespace Cli

/-! ## Paths -/

namespace Path

/-- A list breaks at the last of the characters that are `c`. -/
theorem exists_last {c : Char} {cs : List Char} (h : c ∈ cs) :
    ∃ front back, cs = front ++ c :: back ∧ c ∉ back := by
  obtain ⟨back, front, hcs, hback⟩ := List.eq_append_cons_of_mem (List.mem_reverse.mpr h)
  refine ⟨front.reverse, back.reverse, ?_, mt List.mem_reverse.mp hback⟩
  rw [← List.reverse_reverse cs, hcs]
  simp

theorem split_ne_nil (cs : List Char) : split cs ≠ [] := by
  unfold split
  split
  · exact List.cons_ne_nil _ _
  · split
    · exact List.cons_ne_nil _ _
    · split <;> exact List.cons_ne_nil _ _

theorem split_cons_slash (cs : List Char) : split ('/' :: cs) = [] :: split cs := by
  rw [split, if_pos rfl]

theorem split_of_not_mem {cs : List Char} (h : '/' ∉ cs) : split cs = [cs] := by
  induction cs with
  | nil => rfl
  | cons c cs ih =>
      obtain ⟨hc, hcs⟩ := not_or.mp (mt List.mem_cons.mpr h)
      rw [split, if_neg (Ne.symm hc), ih hcs]

theorem split_slash (front : List Char) {name : List Char} (h : '/' ∉ name) :
    split (front ++ '/' :: name) = split front ++ [name] := by
  induction front with
  | nil =>
      rw [List.nil_append, split_cons_slash, split_of_not_mem h]
      rfl
  | cons c front ih =>
      rw [List.cons_append]
      by_cases hc : c = '/'
      · subst hc
        rw [split_cons_slash, split_cons_slash, ih]
        rfl
      · rw [split, split, if_neg hc, if_neg hc, ih]
        rcases hsplit : split front with _ | ⟨part, parts⟩
        · exact absurd hsplit (split_ne_nil front)
        · rfl

/-- A path is its last part behind something that splits on its own. -/
theorem exists_last_part (cs : List Char) :
    ∃ folders front name, cs = folders ++ name ∧ '/' ∉ name ∧
      ∀ other, '/' ∉ other → split (folders ++ other) = front ++ [other] := by
  by_cases h : '/' ∈ cs
  · obtain ⟨front, name, rfl, hname⟩ := exists_last h
    refine ⟨front ++ ['/'], split front, name, by simp, hname, fun other hother => ?_⟩
    rw [List.append_assoc]
    exact split_slash front hother
  · exact ⟨[], [], cs, rfl, h, fun other hother => split_of_not_mem hother⟩

/-- What the extension of a name is found by. -/
theorem while_reverse (stem : List Char) {ext : List Char} (h : '.' ∉ ext) :
    (stem ++ '.' :: ext).reverse.takeWhile (· ≠ '.') = ext.reverse ∧
      (stem ++ '.' :: ext).reverse.dropWhile (· ≠ '.') = '.' :: stem.reverse := by
  have hall : ∀ c ∈ ext.reverse, decide (c ≠ '.') = true := fun c hc =>
    decide_eq_true fun heq => h (heq ▸ List.mem_reverse.mp hc)
  have hreverse : (stem ++ '.' :: ext).reverse = ext.reverse ++ '.' :: stem.reverse := by simp
  rw [hreverse, List.takeWhile_append_of_pos hall, List.dropWhile_append_of_pos hall]
  simp

theorem extensionOfName?_eq_some_iff {name ext : String} :
    extensionOfName? name = some ext ↔
      '.' ∉ ext.toList ∧ ∃ stem, stem ≠ [] ∧ name.toList = stem ++ '.' :: ext.toList := by
  constructor
  · intro h
    by_cases hdot : '.' ∈ name.toList
    · obtain ⟨stem, back, hname, hback⟩ := exists_last hdot
      obtain ⟨htake, hdrop⟩ := while_reverse stem hback
      -- a name that only begins with its last dot has no extension
      rw [extensionOfName?, hname, htake, hdrop, List.reverse_reverse] at h
      rcases hstem : stem.reverse with _ | ⟨c, cs⟩
      · rw [hstem] at h
        cases h
      · rw [hstem] at h
        cases h
        rw [String.toList_ofList]
        refine ⟨hback, stem, fun hnil => ?_, hname⟩
        rw [hnil] at hstem
        cases hstem
    · have hdrop : name.toList.reverse.dropWhile (· ≠ '.') = [] :=
        List.dropWhile_eq_nil_iff.mpr fun c hc =>
          decide_eq_true fun heq => hdot (heq ▸ List.mem_reverse.mp hc)
      rw [extensionOfName?, hdrop] at h
      cases h
  · rintro ⟨hext, stem, hstem, hname⟩
    obtain ⟨htake, hdrop⟩ := while_reverse stem hext
    rw [extensionOfName?, hname, htake, hdrop, List.reverse_reverse]
    rcases hreverse : stem.reverse with _ | ⟨c, cs⟩
    · exact absurd (List.reverse_eq_nil_iff.mp hreverse) hstem
    · exact congrArg some (String.ofList_toList)

theorem toList_withExtension {path : String} {stem ext : List Char} (h : '.' ∉ ext)
    (hpath : path.toList = stem ++ '.' :: ext) (new : String) :
    (withExtension path new).toList = stem ++ '.' :: new.toList := by
  rw [withExtension, String.toList_append, String.toList_ofList, hpath, (while_reverse stem h).2]
  simp

/-- The part leads to a file or folder of its name. -/
def Proper (part : List Char) : Prop := part ≠ [] ∧ part ≠ ['.'] ∧ part ≠ ['.', '.']

theorem extension?_of_split {path : String} {front : List (List Char)} {name : List Char}
    (hsplit : split path.toList = front ++ [name]) (hname : Proper name) :
    extension? path = extensionOfName? (String.ofList name) := by
  obtain ⟨hnil, hdot, hdots⟩ := hname
  have hparent : String.ofList name ≠ ".." := fun heq =>
    hdots (by rw [← String.toList_ofList (l := name), heq]; rfl)
  have hlast : (components path).getLast? = some (String.ofList name) := by
    have hkeep : [name].filter (fun part => part ≠ [] ∧ part ≠ ['.']) = [name] := by
      simp [hnil, hdot]
    rw [components, hsplit, List.filter_append, hkeep, List.map_append]
    exact List.getLast?_concat
  rw [extension?, fileName?, hlast, Option.filter_some, if_pos (decide_eq_true hparent)]
  rfl

section Extension

variable {path ext new : String} {front : List (List Char)} {name : List Char}

/-- A path with an extension is folders, a stem and the extension. -/
theorem exists_stem (hsplit : split path.toList = front ++ [name]) (hname : Proper name)
    (hext : extension? path = some ext) :
    ∃ folders stem, stem ≠ [] ∧ '/' ∉ stem ∧ '.' ∉ ext.toList ∧ name = stem ++ '.' :: ext.toList ∧
      path.toList = folders ++ name ∧
      ∀ other, '/' ∉ other → split (folders ++ other) = front ++ [other] := by
  rw [extension?_of_split hsplit hname, extensionOfName?_eq_some_iff, String.toList_ofList] at hext
  obtain ⟨hdot, stem, hstem, hlist⟩ := hext
  obtain ⟨folders, front', name', hpath, hslash, hsplits⟩ := exists_last_part path.toList
  rw [hpath, hsplits name' hslash] at hsplit
  obtain ⟨rfl, hlast⟩ := List.append_inj' hsplit rfl
  obtain rfl := List.singleton_inj.mp hlast
  refine ⟨folders, stem, hstem, fun hmem => hslash ?_, hdot, hlist, hpath, hsplits⟩
  rw [hlist]
  exact List.mem_append_left _ hmem

/-- **Another extension** on a path is another extension on its last part. -/
theorem extension?_withExtension (hsplit : split path.toList = front ++ [name])
    (hname : Proper name) (hext : extension? path = some ext) (hnew : new ≠ "")
    (hdot : '.' ∉ new.toList) (hslash : '/' ∉ new.toList) :
    ∃ renamed, split (withExtension path new).toList = front ++ [renamed] ∧
      extension? (withExtension path new) = some new ∧ (renamed = name → new = ext) := by
  obtain ⟨folders, stem, hstem, hfree, hextdot, hlist, hpath, hsplits⟩ :=
    exists_stem hsplit hname hext
  rw [hlist, ← List.append_assoc] at hpath
  have hrenamed := hsplits (stem ++ '.' :: new.toList) (by
    simp only [List.mem_append, List.mem_cons, not_or]
    exact ⟨hfree, by decide, hslash⟩)
  rw [← List.append_assoc, ← toList_withExtension hextdot hpath] at hrenamed
  have hproper : Proper (stem ++ '.' :: new.toList) := by
    have hstempos := List.length_pos_iff.mpr hstem
    have hnewpos : 0 < new.toList.length :=
      List.length_pos_iff.mpr fun hnil => hnew (String.toList_injective hnil)
    have hlong : 3 ≤ (stem ++ '.' :: new.toList).length := by
      rw [List.length_append, List.length_cons]
      omega
    refine ⟨?_, ?_, ?_⟩ <;> intro heq <;> rw [heq] at hlong <;> exact absurd hlong (by decide)
  refine ⟨_, hrenamed, ?_, fun heq => ?_⟩
  · rw [extension?_of_split hrenamed hproper, extensionOfName?_eq_some_iff, String.toList_ofList]
    exact ⟨hdot, stem, hstem, rfl⟩
  · rw [hlist] at heq
    exact String.toList_injective (List.cons.inj (List.append_cancel_left heq)).2

/-- Another extension does not make an option of a path. -/
theorem startsWith_withExtension (hsplit : split path.toList = front ++ [name])
    (hname : Proper name) (hext : extension? path = some ext) (new : String) :
    (withExtension path new).startsWith "-" = path.startsWith "-" := by
  obtain ⟨folders, stem, hstem, -, hdot, hlist, hpath, -⟩ := exists_stem hsplit hname hext
  rw [hlist, ← List.append_assoc] at hpath
  rw [Bool.eq_iff_iff, String.startsWith_string_iff, String.startsWith_string_iff,
    toList_withExtension hdot hpath, hpath]
  rcases hfirst : folders ++ stem with _ | ⟨c, cs⟩
  · exact absurd (List.append_eq_nil_iff.mp hfirst).2 hstem
  · show ['-'] <+: c :: (cs ++ _) ↔ ['-'] <+: c :: (cs ++ _)
    simp

end Extension

end Path

/-! ## Directories -/

namespace Directory

variable {dir after : Directory} {path other place : String} {bytes contents : List UInt8}
variable {folders parts : List String}

/-- A location ends in the name. -/
theorem split_location (folders : List String) {name : String} (h : '/' ∉ name.toList) :
    ∃ front, Path.split (location (name :: folders)).toList = front ++ [name.toList] := by
  cases folders with
  | nil => exact ⟨[], Path.split_of_not_mem h⟩
  | cons folder folders =>
      refine ⟨Path.split (location (folder :: folders)).toList, ?_⟩
      rw [location, String.toList_append, String.toList_append, List.append_assoc]
      exact Path.split_slash _ h

/-- A path that leads somewhere leads to the name in its last part, in some folder. -/
theorem last_of_follow (h : dir.follow folders parts = .ok place) :
    ∃ front name folders', parts = front ++ [name] ∧ name ≠ "" ∧ name ≠ "." ∧ name ≠ ".." ∧
      place = location (name :: folders') := by
  induction parts generalizing folders with
  | nil => cases h
  | cons part parts ih =>
      have hlater : ∀ {folders}, dir.follow folders parts = .ok place →
          ∃ front name folders', part :: parts = front ++ [name] ∧ name ≠ "" ∧ name ≠ "." ∧
            name ≠ ".." ∧ place = location (name :: folders') := by
        intro folders h
        obtain ⟨front, name, folders', hparts, hname⟩ := ih h
        exact ⟨part :: front, name, folders', congrArg (part :: ·) hparts, hname⟩
      rw [follow] at h
      split at h
      · exact hlater h
      rename_i hstay
      split at h
      · split at h
        · exact hlater h
        · cases h
      rename_i hleave
      split at h
      · rename_i hlast
        cases h
        obtain ⟨hnil, hdot⟩ := not_or.mp hstay
        exact ⟨[], part, folders, congrArg _ hlast, hnil, hdot, hleave, rfl⟩
      · split at h
        · exact hlater h
        · cases h
        · cases h

/-- The last part of a path that leads somewhere is the last part of where it leads. -/
theorem split_of_resolve (h : dir.resolve path = .ok place) :
    ∃ name, Path.Proper name ∧ (∃ front, Path.split path.toList = front ++ [name]) ∧
      ∃ front, Path.split place.toList = front ++ [name] := by
  obtain ⟨front, name, folders, hparts, hnil, hdot, hdots, rfl⟩ := last_of_follow h
  obtain ⟨parts, last, hsplit, -, hlast⟩ := List.map_eq_append_iff.mp hparts
  obtain ⟨part, rfl, rfl⟩ := List.map_eq_singleton_iff.mp hlast
  -- a part of a path has no slash in it
  have hslash : '/' ∉ part := by
    obtain ⟨before, _, back, hpath, hback, hsplits⟩ := Path.exists_last_part path.toList
    rw [hpath, hsplits back hback] at hsplit
    exact List.singleton_inj.mp (List.append_inj' hsplit rfl).2 ▸ hback
  have hplace := @split_location folders (String.ofList part) (by rwa [String.toList_ofList])
  rw [String.toList_ofList] at hplace
  refine ⟨part, ⟨?_, ?_, ?_⟩, ⟨parts, hsplit⟩, hplace⟩
  · rintro rfl
    exact hnil rfl
  · rintro rfl
    exact hdot rfl
  · rintro rfl
    exact hdots rfl

/-- Another extension is another file. -/
theorem resolve_withExtension_ne {ext new : String} (h : dir.resolve path = .ok place)
    (hext : Path.extension? path = some ext) (hnew : new ≠ "") (hdot : '.' ∉ new.toList)
    (hslash : '/' ∉ new.toList) (hne : new ≠ ext) :
    dir.resolve path ≠ dir.resolve (Path.withExtension path new) := by
  intro heq
  obtain ⟨name, hname, ⟨front, hsplit⟩, before, hplace⟩ := split_of_resolve h
  obtain ⟨renamed, hrenamed, -, hsame⟩ :=
    Path.extension?_withExtension hsplit hname hext hnew hdot hslash
  -- both paths would lead to one place, so their last parts would be the same
  obtain ⟨name', -, ⟨front', hsplit'⟩, before', hplace'⟩ := split_of_resolve (heq.symm.trans h)
  have htarget : renamed = name' :=
    List.singleton_inj.mp (List.append_inj' (hrenamed.symm.trans hsplit') rfl).2
  have hlast : name' = name :=
    List.singleton_inj.mp (List.append_inj' (hplace'.symm.trans hplace) rfl).2
  exact hne (hsame (htarget.trans hlast))

/-- A file where no folder was is on no way to anything. -/
theorem follow_insert {leads : String} (hfolder : Dictionary.find? place dir ≠ some .folder)
    (h : dir.follow folders parts = .ok leads) :
    follow (Dictionary.insert place (.file bytes) dir) folders parts = .ok leads := by
  induction parts generalizing folders with
  | nil => cases h
  | cons part parts ih =>
      rw [follow] at h ⊢
      split at h
      · rename_i hstay
        rw [if_pos hstay]
        exact ih h
      rename_i hstay
      rw [if_neg hstay]
      split at h
      · rename_i hleave
        rw [if_pos hleave]
        split at h
        · exact ih h
        · cases h
      rename_i hleave
      rw [if_neg hleave]
      split at h
      · rename_i hlast
        rw [if_pos hlast]
        exact h
      rename_i hlast
      rw [if_neg hlast]
      split at h
      · rename_i hfind
        -- a folder is there, so it is not where the file is
        have hne : location (part :: folders) ≠ place := fun heq => hfolder (heq ▸ hfind)
        rw [Dictionary.find?_insert_of_ne hne, hfind]
        exact ih h
      · cases h
      · cases h

/-- What a file is written by. -/
theorem write_eq_ok (h : dir.write path bytes = .ok after) :
    ∃ place, dir.resolve path = .ok place ∧ Dictionary.find? place dir ≠ some .folder ∧
      after = Dictionary.insert place (.file bytes) dir := by
  unfold write at h
  rcases hresolve : dir.resolve path with e | place
  · rw [hresolve] at h
    cases h
  rw [hresolve] at h
  dsimp only [bind, Except.bind] at h
  split at h
  · cases h
  · rename_i hfolder
    cases h
    exact ⟨place, rfl, hfolder, rfl⟩

theorem resolve_of_write {leads : String} (h : dir.write path bytes = .ok after)
    (hother : dir.resolve other = .ok leads) : after.resolve other = .ok leads := by
  obtain ⟨place, -, hfolder, rfl⟩ := write_eq_ok h
  exact follow_insert hfolder hother

theorem read_eq_ok_iff :
    dir.read path = .ok contents ↔
      ∃ place, dir.resolve path = .ok place ∧
        Dictionary.find? place dir = some (.file contents) := by
  unfold read
  rcases dir.resolve path with e | place
  · exact ⟨nofun, nofun⟩
  dsimp only [bind, Except.bind]
  constructor
  · intro h
    split at h
    · rename_i hfind
      cases h
      exact ⟨place, rfl, hfind⟩
    · cases h
    · cases h
  · rintro ⟨place', hplace, hfind⟩
    cases hplace
    rw [hfind]

/-- **A file that was written** is read. -/
theorem read_of_write (h : dir.write path bytes = .ok after) : after.read path = .ok bytes := by
  obtain ⟨place, hresolve, -, rfl⟩ := write_eq_ok h
  exact read_eq_ok_iff.mpr ⟨place, resolve_of_write h hresolve, Dictionary.find?_insert_self ..⟩

/-- **A file elsewhere** is read as before. -/
theorem read_of_write_other (h : dir.write path bytes = .ok after)
    (hread : dir.read other = .ok contents) (hne : dir.resolve other ≠ dir.resolve path) :
    after.read other = .ok contents := by
  obtain ⟨leads, hleads, hfind⟩ := read_eq_ok_iff.mp hread
  obtain ⟨place, hresolve, -, rfl⟩ := write_eq_ok h
  rw [hleads, hresolve] at hne
  refine read_eq_ok_iff.mpr ⟨leads, resolve_of_write h hleads, ?_⟩
  rw [Dictionary.find?_insert_of_ne fun heq => hne (congrArg _ heq), hfind]

end Directory

end Cli

end ExprMachine
