import DependencyMap.Wire
import DependencyMap.Proofs.PathMap
import Mathlib.Data.List.Perm.Basic
import Mathlib.Data.Set.List

/-!
# Reading requests

`textEntries?_eq_some_iff` says which objects are read as files: those that are written from texts.
The files of a request go into a map, so it makes no difference in which order they are written
(`ofJson_set_files`).
-/

namespace DependencyMap

namespace Members

variable {α : Type}

theorem get?_cons (m : Text × α) (members : Members α) (name : Text) :
    get? (m :: members) name = if m.1 = name then some m.2 else get? members name := by
  simp only [get?, List.find?_cons]
  by_cases h : m.1 = name <;> simp [h]

theorem get?_set (name : Text) (a : α) (members : Members α) (other : Text) :
    get? (set name a members) other = if name = other then some a else get? members other := by
  induction members with
  | nil => rw [set, get?_cons]
  | cons m members ih =>
    simp only [set]
    split
    · rename_i hm
      rw [get?_cons, get?_cons, hm]
      by_cases h : name = other <;> simp [h]
    · rename_i hm
      rw [get?_cons, get?_cons, ih]
      by_cases h : m.1 = other
      · subst h
        simp [Ne.symm hm]
      · simp [h]

end Members

open Json

theorem textEntries?_cons (name : Text) (v : Value) (members : Members Value) :
    textEntries? ((name, v) :: members) =
      match v with
      | .text t => (textEntries? members).map ((name, t) :: ·)
      | _ => none := by
  simp only [textEntries?, List.mapM_cons]
  cases v with
  | text t => exact (Option.map_eq_bind).symm
  | _ => rfl

def fileMember (e : Text × Text) : Text × Value := (e.1, .text e.2)

theorem fileMember_injective : Function.Injective fileMember := by
  rintro ⟨name, t⟩ ⟨name', t'⟩ h
  injection h with hName hValue
  injection hValue with hText
  exact Prod.ext hName hText

/-- What is read as files are just the objects that are written from texts. -/
theorem textEntries?_eq_some_iff {members : Members Value} {entries : List (Text × Text)} :
    textEntries? members = some entries ↔ members = entries.map fileMember := by
  induction members generalizing entries with
  | nil => cases entries <;> simp [textEntries?]
  | cons m members ih =>
    obtain ⟨name, v⟩ := m
    rw [textEntries?_cons]
    cases v with
    | text t =>
      rw [Option.map_eq_some_iff]
      constructor
      · rintro ⟨rest, hRest, rfl⟩
        rw [ih.mp hRest]
        rfl
      · intro h
        obtain ⟨e, rest, rfl, he, hRest⟩ := List.map_eq_cons_iff.mp h.symm
        have hFile : e = (name, t) := fileMember_injective he
        exact ⟨rest, ih.mpr hRest.symm, by rw [hFile]⟩
    | _ =>
      refine iff_of_false (by simp) fun h => ?_
      obtain ⟨e, rest, -, he, -⟩ := List.map_eq_cons_iff.mp h.symm
      injection he with _ hValue
      cases hValue

/-- The same files in another order are read as the same entries in another order. -/
theorem textEntries?_of_perm {members members' : Members Value} {entries : List (Text × Text)}
    (hPerm : members.Perm members') (h : textEntries? members = some entries) :
    ∃ entries', textEntries? members' = some entries' ∧ entries.Perm entries' := by
  rw [textEntries?_eq_some_iff] at h
  subst h
  have hFiles : members' ∈ Set.range (List.map fileMember) := by
    rw [Set.range_list_map]
    intro m hm
    obtain ⟨e, -, rfl⟩ := List.mem_map.mp (hPerm.mem_iff.mpr hm)
    exact ⟨e, rfl⟩
  obtain ⟨entries', rfl⟩ := hFiles
  exact ⟨entries', textEntries?_eq_some_iff.mpr rfl,
    (List.map_perm_map_iff fileMember_injective).mp hPerm⟩

/-- The files of a request are the same snapshot in whatever order they are written. -/
theorem snapshotMember_eq_of_perm {members members' files files' : Members Value}
    (h : Members.get? members "repoFiles" = some (.object files))
    (h' : Members.get? members' "repoFiles" = some (.object files'))
    (hPerm : files.Perm files') (hDistinct : (files.map (·.1)).Nodup) :
    snapshotMember members = snapshotMember members' := by
  simp only [snapshotMember, h, h']
  cases hEntries : textEntries? files with
  | some entries =>
    obtain ⟨entries', hEntries', hPermEntries⟩ := textEntries?_of_perm hPerm hEntries
    have hNodup : (entries.map (·.1)).Nodup := by
      rw [textEntries?_eq_some_iff] at hEntries
      rwa [hEntries, List.map_map] at hDistinct
    simp only [hEntries', PathMap.ofList_eq_of_perm hNodup hPermEntries]
  | none =>
    cases hEntries' : textEntries? files' with
    | none => rfl
    | some entries' =>
      obtain ⟨entries, hEntries'', -⟩ := textEntries?_of_perm hPerm.symm hEntries'
      rw [hEntries] at hEntries''
      cases hEntries''

/-- Whatever else is written in a request, it is read alike in whatever order its files are. -/
theorem Request.ofJson_set_files (members files files' : Members Value) (hPerm : files.Perm files')
    (hDistinct : (files.map (·.1)).Nodup) :
    ofJson (.object (Members.set "repoFiles" (.object files) members)) =
      ofJson (.object (Members.set "repoFiles" (.object files') members)) := by
  have hGet : ∀ v : Value,
      Members.get? (Members.set "repoFiles" v members) "repoFiles" = some v := by
    intro v
    rw [Members.get?_set, if_pos rfl]
  have hFiles := snapshotMember_eq_of_perm (hGet (.object files)) (hGet (.object files')) hPerm
    hDistinct
  have hText : ∀ name : Text, ¬ ("repoFiles" : Text) = name →
      Members.get? (Members.set "repoFiles" (.object files) members) name =
        Members.get? (Members.set "repoFiles" (.object files') members) name := by
    intro name hne
    rw [Members.get?_set, Members.get?_set, if_neg hne, if_neg hne]
  simp only [ofJson, hFiles, textMember?, labelMember?, hText "filePath" (by decide),
    hText "fileContent" (by decide), hText "owner" (by decide), hText "repo" (by decide)]

end DependencyMap
