import DependencyMap.Proofs.Specifiers
import Mathlib.Data.List.Find

/-!
# The three ways in which resolving ends

A specifier that is written as a package stays as it is. Any other has a trunk, which comes from the
directory of the importing file and from the specifier alone (`trunkFrom`); it leads to the first
file whose path is the trunk with an ending, or to the trunk itself where there is no such file.
`resolve_outcome` says that these are three cases of which just one occurs, and what follows for two
snapshots: only the nine paths that are probed matter, and with more files a specifier that has led
to a file leads to one with the same ending or with one that is tried before.
-/

namespace DependencyMap

variable {source target : Text} {files files' : Snapshot} {ending : Text}

/-- What a specifier stands for in a directory, before endings are tried. -/
def trunkFrom (directory target : Text) : Text :=
  cleanPath (joinRelative directory (expandAlias target))

theorem probedPath_eq_trunkFrom (source target : Text) :
    probedPath source target = trunkFrom source.beforeLastSlash target := rfl

def innerBeginnings : List Text := [".", "@/", "~/"]

theorem isPackageSpecifier_iff :
    isPackageSpecifier target ↔ ∀ beginning ∈ innerBeginnings, ¬ target.startsWith beginning := by
  simp [isPackageSpecifier, innerBeginnings]

theorem isExternal_resolve_iff :
    (resolve source target files).isExternal = true ↔ isPackageSpecifier target := by
  rw [resolve]
  split
  · rename_i h
    simp [Resolution.isExternal, h]
  · rename_i h
    simp only
    split <;> simp [Resolution.isExternal, h]

theorem not_isPackageSpecifier_of_resolve {outcome : Resolution}
    (h : resolve source target files = outcome) (hInner : outcome.isExternal = false) :
    ¬ isPackageSpecifier target := by
  rw [← @isExternal_resolve_iff source target files, h, hInner]
  exact Bool.false_ne_true

/-! ### The cases -/

inductive OutcomeCase
  /-- The specifier leaves the repository. -/
  | leaving
  /-- There is a file. -/
  | found
  /-- There is none. -/
  | missing

namespace OutcomeCase

/-- What the case says of a specifier with this trunk, of the files, and of the outcome. -/
def Holds (c : OutcomeCase) (target trunk : Text) (files : Snapshot) (outcome : Resolution) :
    Prop :=
  match c with
  | leaving => (∀ beginning ∈ innerBeginnings, ¬ target.startsWith beginning) ∧
      outcome.path = target ∧ outcome.isExternal = true ∧ outcome.isConfirmed = false
  | found => outcome.isExternal = false ∧ outcome.isConfirmed = true ∧
      files.contains outcome.path ∧
      ∃ ending ∈ probeEndings, outcome.path = trunk ++ ending ∧ files.NoneBefore trunk ending
  | missing => outcome.isExternal = false ∧ outcome.isConfirmed = false ∧ outcome.path = trunk ∧
      ∀ ending ∈ probeEndings, ¬ files.contains (trunk ++ ending)

/-- The two marks of an outcome tell the cases apart. -/
theorem Holds.unique {c c' : OutcomeCase} {trunk : Text} {outcome : Resolution}
    (h : c.Holds target trunk files outcome) (h' : c'.Holds target trunk files outcome) :
    c' = c := by
  cases c <;> cases c' <;> simp_all [Holds]

end OutcomeCase

theorem exists_ending_of_resolve_eq_confirmed {p : Text}
    (h : resolve source target files = .confirmed p) :
    ∃ ending ∈ probeEndings, p = probedPath source target ++ ending ∧
      files.NoneBefore (probedPath source target) ending := by
  have hPackage := not_isPackageSpecifier_of_resolve h rfl
  obtain ⟨ending, hEnding, rfl⟩ := List.mem_map.mp (mem_probes_of_resolve_eq_confirmed hPackage h)
  exact ⟨ending, hEnding, rfl, ((resolve_eq_confirmed_append_iff hPackage hEnding).mp h).2⟩

theorem not_contains_of_mem_probeEndings {p : Text}
    (h : resolve source target files = .unconfirmed p) :
    p = probedPath source target ∧
      ∀ ending ∈ probeEndings, ¬ files.contains (probedPath source target ++ ending) := by
  have hPackage := not_isPackageSpecifier_of_resolve h rfl
  rw [resolve_of_not_package hPackage] at h
  split at h
  · cases h
  · rename_i hNone
    cases h
    refine ⟨rfl, fun ending hEnding => ?_⟩
    exact List.find?_eq_none.mp hNone _ (List.mem_map.mpr ⟨ending, hEnding, rfl⟩)

theorem exists_outcomeCase (source target : Text) (files : Snapshot) :
    ∃ c : OutcomeCase, c.Holds target (probedPath source target) files
      (resolve source target files) := by
  cases hOutcome : resolve source target files with
  | package p =>
    obtain ⟨hPackage, rfl⟩ := resolve_eq_package_iff.mp hOutcome
    exact ⟨.leaving, isPackageSpecifier_iff.mp hPackage, rfl, rfl, rfl⟩
  | confirmed p =>
    exact ⟨.found, rfl, rfl, contains_of_resolve_eq_confirmed hOutcome,
      exists_ending_of_resolve_eq_confirmed hOutcome⟩
  | unconfirmed p =>
    obtain ⟨hPath, hNone⟩ := not_contains_of_mem_probeEndings hOutcome
    exact ⟨.missing, rfl, rfl, hPath, hNone⟩

/-! ### Two snapshots -/

/-- Only the paths that are probed are asked for. -/
theorem resolve_congr_of_probed
    (h : ∀ ending ∈ probeEndings, files.contains (probedPath source target ++ ending) =
      files'.contains (probedPath source target ++ ending)) :
    resolve source target files = resolve source target files' := by
  by_cases hPackage : isPackageSpecifier target
  · rw [resolve, resolve, if_pos hPackage, if_pos hPackage]
  · have hFind : (probes source target).find? files.contains =
        (probes source target).find? files'.contains := by
      refine List.find?_congr fun p hp => ?_
      obtain ⟨ending, hEnding, rfl⟩ := List.mem_map.mp hp
      exact h ending hEnding
    rw [resolve_of_not_package hPackage, resolve_of_not_package hPackage, hFind]

theorem contains_eq_of_paths_eq (h : files.paths = files'.paths) (p : Text) :
    files.contains p = files'.contains p := by
  have hPaths (m : Snapshot) : m.contains p = m.paths.any fun q => q = p := by
    rw [PathMap.contains, PathMap.paths, List.any_map]
    rfl
  rw [hPaths, hPaths, h]

/-- The file that a larger snapshot has first among the probes is no later one. -/
theorem resolve_of_larger (hLarger : ∀ p, files.contains p → files'.contains p)
    (hEnding : ending ∈ probeEndings)
    (h : resolve source target files = .confirmed (probedPath source target ++ ending)) :
    ∃ ending' ∈ probeEndings,
      resolve source target files' = .confirmed (probedPath source target ++ ending') ∧
        (ending' = ending ∨ ending' ∈ probeEndings.takeWhile fun e => e ≠ ending) := by
  have hFile := hLarger _ (contains_of_resolve_eq_confirmed h)
  cases hOutcome : resolve source target files' with
  | package p =>
    rw [resolve_eq_package_iff.mpr (resolve_eq_package_iff.mp hOutcome)] at h
    cases h
  | unconfirmed p =>
    exact absurd hFile ((not_contains_of_mem_probeEndings hOutcome).2 ending hEnding)
  | confirmed p =>
    obtain ⟨ending', hEnding', rfl, hNone⟩ := exists_ending_of_resolve_eq_confirmed hOutcome
    refine ⟨ending', hEnding', rfl, ?_⟩
    by_contra hLater
    obtain ⟨hne, hNotBefore⟩ := not_or.mp hLater
    -- of two endings one is tried before the other
    have hOrder : ∀ e ∈ probeEndings, ∀ e' ∈ probeEndings, e' ≠ e →
        e' ∉ probeEndings.takeWhile (fun x => x ≠ e) →
        e ∈ probeEndings.takeWhile fun x => x ≠ e' := by decide
    exact hNone ending (hOrder ending hEnding ending' hEnding' hne hNotBefore) hFile

/-- Just one of the three cases occurs, and a specifier leaves the repository just when it is
written without one of the beginnings that stay in it. Snapshots that agree on the nine paths with
the trunk give the same outcome, and so do those whose files differ in their texts alone. A
specifier that leads to a file does so in every larger snapshot, with the same ending or an earlier
one. -/
theorem resolve_outcome (source target : Text) (files : Snapshot) :
    (∃! c : OutcomeCase, c.Holds target (trunkFrom source.beforeLastSlash target) files
      (resolve source target files)) ∧
    ((resolve source target files).isExternal = true ↔
      ∀ beginning ∈ innerBeginnings, ¬ target.startsWith beginning) ∧
    (∀ files' : Snapshot, (∀ ending ∈ probeEndings,
        files.contains (trunkFrom source.beforeLastSlash target ++ ending) =
          files'.contains (trunkFrom source.beforeLastSlash target ++ ending)) →
      resolve source target files = resolve source target files') ∧
    (∀ files' : Snapshot, files.paths = files'.paths →
      resolve source target files = resolve source target files') ∧
    ∀ files' : Snapshot, (∀ p, files.contains p → files'.contains p) →
      ∀ ending ∈ probeEndings, resolve source target files =
          .confirmed (trunkFrom source.beforeLastSlash target ++ ending) →
        ∃ ending' ∈ probeEndings, resolve source target files' =
            .confirmed (trunkFrom source.beforeLastSlash target ++ ending') ∧
          (ending' = ending ∨ ending' ∈ probeEndings.takeWhile fun e => e ≠ ending) := by
  rw [← probedPath_eq_trunkFrom]
  obtain ⟨c, hHolds⟩ := exists_outcomeCase source target files
  refine ⟨⟨c, hHolds, fun c' hHolds' => hHolds.unique hHolds'⟩, ?leaving, ?probed, ?texts, ?larger⟩
  case leaving => rw [isExternal_resolve_iff, isPackageSpecifier_iff]
  case probed => exact fun files' h => resolve_congr_of_probed h
  case texts => exact fun files' h => resolve_congr (contains_eq_of_paths_eq h)
  case larger => exact fun files' hLarger ending hEnding h => resolve_of_larger hLarger hEnding h

/-- With one file more elsewhere, with another text, and with a file that is tried before. -/
theorem resolve_outcome_variant :
    (∀ ending ∈ probeEndings,
      variantSnapshot.contains
          (trunkFrom (Text.beforeLastSlash "src/app/page.ts") "../lib/util" ++ ending) =
        (variantSnapshot.insert "a.ts" []).contains
          (trunkFrom (Text.beforeLastSlash "src/app/page.ts") "../lib/util" ++ ending)) ∧
    resolve "src/app/page.ts" "../lib/util" variantSnapshot =
      resolve "src/app/page.ts" "../lib/util" (variantSnapshot.insert "a.ts" []) ∧
    variantSnapshot.paths = (variantSnapshot.insert "src/lib/util.tsx" "let a").paths ∧
    resolve "src/app/page.ts" "../lib/util" variantSnapshot =
      resolve "src/app/page.ts" "../lib/util" (variantSnapshot.insert "src/lib/util.tsx" "let a") ∧
    (∀ p, variantSnapshot.contains p → (variantSnapshot.insert "src/lib/util.ts" []).contains p) ∧
    (".tsx" : Text) ∈ probeEndings ∧
    resolve "src/app/page.ts" "../lib/util" variantSnapshot = .confirmed
      (trunkFrom (Text.beforeLastSlash "src/app/page.ts") "../lib/util" ++ (".tsx" : Text)) ∧
    ∃ ending' ∈ probeEndings,
      resolve "src/app/page.ts" "../lib/util" (variantSnapshot.insert "src/lib/util.ts" []) =
        .confirmed (trunkFrom (Text.beforeLastSlash "src/app/page.ts") "../lib/util" ++ ending') ∧
      (ending' = (".tsx" : Text) ∨
        ending' ∈ probeEndings.takeWhile fun e => e ≠ (".tsx" : Text)) := by
  obtain ⟨-, -, hProbed, hTexts, hLarger⟩ :=
    resolve_outcome "src/app/page.ts" "../lib/util" variantSnapshot
  have hSame : ∀ ending ∈ probeEndings,
      variantSnapshot.contains
          (trunkFrom (Text.beforeLastSlash "src/app/page.ts") "../lib/util" ++ ending) =
        (variantSnapshot.insert "a.ts" []).contains
          (trunkFrom (Text.beforeLastSlash "src/app/page.ts") "../lib/util" ++ ending) := by
    decide
  have hPaths : variantSnapshot.paths =
      (variantSnapshot.insert "src/lib/util.tsx" "let a").paths := by decide
  have hMore : ∀ p, variantSnapshot.contains p →
      (variantSnapshot.insert "src/lib/util.ts" []).contains p :=
    fun p hp => PathMap.contains_insert.mpr (Or.inr hp)
  have hEnding : (".tsx" : Text) ∈ probeEndings := by decide
  have hFound : resolve "src/app/page.ts" "../lib/util" variantSnapshot = .confirmed
      (trunkFrom (Text.beforeLastSlash "src/app/page.ts") "../lib/util" ++ (".tsx" : Text)) := by
    decide
  exact ⟨hSame, hProbed _ hSame, hPaths, hTexts _ hPaths, hMore, hEnding, hFound,
    hLarger _ hMore _ hEnding hFound⟩

end DependencyMap
