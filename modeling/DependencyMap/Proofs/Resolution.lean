import DependencyMap.Resolution
import DependencyMap.Proofs.PathMap

/-!
# The outcomes of resolving

A specifier resolves to a package exactly when it is written as one, and then to itself. Any other
outcome comes from the probes: a confirmed path is a file of the snapshot, and an unconfirmed one
is not, because the first probe is the path itself.

The snapshot is asked only whether it has a file at each probe (`resolve_congr`). A new file can
therefore change an outcome in one way: the probes come to it before they come to an older file, and
then the outcome is the new file (`resolve_insert`).
-/

namespace DependencyMap

variable {source target p : Text} {files : Snapshot}

theorem resolve_eq_package_iff :
    resolve source target files = .package p ↔ isPackageSpecifier target ∧ target = p := by
  rw [resolve]
  split
  · rename_i h
    simp [h]
  · rename_i h
    simp only
    split <;> simp [h]

theorem contains_of_resolve_eq_confirmed (h : resolve source target files = .confirmed p) :
    files.contains p := by
  rw [resolve] at h
  split at h
  · cases h
  · simp only at h
    split at h
    · rename_i hFound
      cases h
      exact List.find?_some hFound
    · cases h

theorem not_contains_of_resolve_eq_unconfirmed
    (h : resolve source target files = .unconfirmed p) : ¬ files.contains p := by
  rw [resolve] at h
  split at h
  · cases h
  · simp only at h
    split at h
    · cases h
    · rename_i hNone
      cases h
      -- the empty ending comes first, so the path itself is among the candidates
      have hFirst : probedPath source target ∈
          probeEndings.map fun ending => probedPath source target ++ ending :=
        List.mem_map.mpr ⟨[], List.mem_cons_self, List.append_nil _⟩
      exact List.find?_eq_none.mp hNone _ hFirst

/-- What resolves to a path of a file was confirmed, or is a package spelled like that path. -/
theorem path_resolve_eq_iff_of_contains (h : files.contains p) :
    (resolve source target files).path = p ↔
      resolve source target files = .confirmed p ∨ resolve source target files = .package p := by
  cases hOutcome : resolve source target files with
  | package specifier => simp [Resolution.path]
  | confirmed path => simp [Resolution.path]
  | unconfirmed path =>
    have hAbsent := not_contains_of_resolve_eq_unconfirmed hOutcome
    simp only [Resolution.path, reduceCtorEq, or_self, iff_false]
    rintro rfl
    exact hAbsent h

/-! ### Resolving in a changed snapshot -/

/-- The nine paths that a specifier is looked up at, in this order. -/
def probes (source target : Text) : List Text :=
  probeEndings.map fun ending => probedPath source target ++ ending

theorem resolve_of_not_package (h : ¬ isPackageSpecifier target) :
    resolve source target files =
      match (probes source target).find? files.contains with
      | some candidate => .confirmed candidate
      | none => .unconfirmed (probedPath source target) := by
  rw [resolve, if_neg h]
  rfl

theorem mem_probes_of_resolve_eq_confirmed (hPackage : ¬ isPackageSpecifier target)
    (h : resolve source target files = .confirmed p) : p ∈ probes source target := by
  rw [resolve_of_not_package hPackage] at h
  cases hFound : (probes source target).find? files.contains with
  | none =>
    rw [hFound] at h
    cases h
  | some candidate =>
    rw [hFound] at h
    cases h
    exact List.mem_of_find?_eq_some hFound

theorem resolve_congr {files' : Snapshot} (h : ∀ p, files.contains p = files'.contains p) :
    resolve source target files = resolve source target files' := by
  have hContains : files.contains = files'.contains := funext h
  simp only [resolve, hContains]

/-- The first element that satisfies `p` is one before whose first place none does. -/
theorem find?_eq_some_iff_takeWhile {α : Type} [DecidableEq α] {p : α → Bool} {l : List α} {a : α} :
    l.find? p = some a ↔ a ∈ l ∧ p a ∧ ∀ b ∈ l.takeWhile (fun b => b ≠ a), ¬ p b := by
  induction l with
  | nil => simp
  | cons b l ih =>
    by_cases hEq : b = a
    · subst hEq
      cases hb : p b <;> simp [hb]
      intro hFound
      rw [List.find?_some hFound] at hb
      cases hb
    · have hne : a ≠ b := Ne.symm hEq
      cases hb : p b <;> simp [hb, hEq, hne, ih]

/-- A specifier is confirmed with an ending exactly when there is a file with that ending and none
with an ending that is tried before. -/
theorem resolve_eq_confirmed_append_iff (hPackage : ¬ isPackageSpecifier target) {ending : Text}
    (hEnding : ending ∈ probeEndings) :
    resolve source target files = .confirmed (probedPath source target ++ ending) ↔
      files.contains (probedPath source target ++ ending) ∧
        ∀ earlier ∈ probeEndings.takeWhile (fun e => e ≠ ending),
          ¬ files.contains (probedPath source target ++ earlier) := by
  have hFirst := @find?_eq_some_iff_takeWhile Text _
    (fun e => files.contains (probedPath source target ++ e)) probeEndings ending
  rw [resolve_of_not_package hPackage, probes, List.find?_map]
  cases hFound : probeEndings.find? (files.contains ∘ fun e => probedPath source target ++ e) with
  | none =>
    have hNone := List.find?_eq_none.mp hFound ending hEnding
    simp only [Option.map_none, reduceCtorEq, false_iff]
    rintro ⟨hFile, -⟩
    exact hNone hFile
  | some e =>
    have hSame : e = ending ↔ probeEndings.find?
        (fun e => files.contains (probedPath source target ++ e)) = some ending := by
      rw [← Option.some.injEq, ← hFound]
      rfl
    simp only [Option.map_some, Resolution.confirmed.injEq, List.append_cancel_left_eq, hSame,
      hFirst, hEnding, true_and]

/-- The specifier is looked up at `p`, and at no file of the snapshot before that. -/
def Snapshot.ReachesFirst (files : Snapshot) (source target p : Text) : Prop :=
  ¬ isPackageSpecifier target ∧ ∃ earlier later, probes source target = earlier ++ p :: later ∧
    ∀ c ∈ earlier, ¬ files.contains c

/-- The first file among candidates is the same after a file was added, or it is the new one. -/
theorem find?_contains_insert (files : Snapshot) (p text : Text) (candidates : List Text) :
    candidates.find? (files.insert p text).contains = candidates.find? files.contains ∨
      (∃ earlier later, candidates = earlier ++ p :: later ∧ ∀ c ∈ earlier, ¬ files.contains c) ∧
        candidates.find? (files.insert p text).contains = some p := by
  induction candidates with
  | nil => exact Or.inl rfl
  | cons c candidates ih =>
    by_cases hOld : files.contains c
    · have hNew : (files.insert p text).contains c := PathMap.contains_insert.mpr (Or.inr hOld)
      -- what is found before the new file hides it
      left
      rw [List.find?_cons_of_pos hNew, List.find?_cons_of_pos hOld]
    · by_cases hc : c = p
      · subst hc
        have hNew : (files.insert c text).contains c := PathMap.contains_insert.mpr (Or.inl rfl)
        right
        exact ⟨⟨[], candidates, rfl, by simp⟩, List.find?_cons_of_pos hNew⟩
      · have hNew : ¬ (files.insert p text).contains c := by
          rw [PathMap.contains_insert]
          exact not_or.mpr ⟨hc, hOld⟩
        rw [List.find?_cons_of_neg hNew, List.find?_cons_of_neg hOld]
        rcases ih with hSame | ⟨⟨earlier, later, rfl, hNone⟩, hFound⟩
        · exact Or.inl hSame
        · refine Or.inr ⟨⟨c :: earlier, later, rfl, ?_⟩, hFound⟩
          intro d hd
          rcases List.mem_cons.mp hd with rfl | hd
          · exact hOld
          · exact hNone d hd

/-- A new file changes the outcome of a specifier only to itself, and only when the specifier
reaches it before every older file. -/
theorem resolve_insert (files : Snapshot) (source target p text : Text) :
    resolve source target (files.insert p text) = resolve source target files ∨
      files.ReachesFirst source target p ∧
        resolve source target (files.insert p text) = .confirmed p := by
  by_cases hPackage : isPackageSpecifier target
  · left
    rw [resolve, resolve, if_pos hPackage, if_pos hPackage]
  · rw [resolve_of_not_package hPackage, resolve_of_not_package hPackage]
    rcases find?_contains_insert files p text (probes source target) with hSame | ⟨hFirst, hFound⟩
    · left
      rw [hSame]
    · right
      rw [hFound]
      exact ⟨⟨hPackage, hFirst⟩, rfl⟩

end DependencyMap
