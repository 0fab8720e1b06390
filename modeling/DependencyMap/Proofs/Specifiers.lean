import DependencyMap.Proofs.Resolution
import DependencyMap.Proofs.Text.Segments

/-!
# Relative specifiers

`relativeSpecifier` writes the way from a directory to a path: steps to the directory above, and
then what is left of the path. Joined and cleaned it is that path again
(`probedPath_relativeSpecifier`), and so a file is found under every specifier that is written for
it, also without its ending if nothing is found before (`resolve_relativeSpecifier`).

A specifier may also climb further than there are directories (`resolve_climbing_out`). It then
stands for the empty path, which is looked up like any other; but from the top of the repository a
single step leads nowhere, and two dots alone are not taken for a step.
-/

namespace DependencyMap

open Text

variable {source target path rest : Text} {names : List Text} {files : Snapshot}

/-! ### Cleaning -/

/-- Nothing is cleaned behind the first slash of a path that has no empty directory there. -/
theorem halveSlashes_eq_self {t : Text} (h : ∀ name ∈ t.directories.tail, name ≠ []) :
    halveSlashes t = t := by
  fun_induction halveSlashes t with
  | case1 => rfl
  | case2 => rfl
  | case3 c d rest hSlashes ih =>
    obtain ⟨rfl, rfl⟩ := hSlashes
    rw [directories_slash_cons, directories_slash_cons] at h
    exact absurd rfl (h [] List.mem_cons_self)
  | case4 c d rest hSlashes ih =>
    rw [ih]
    by_cases hc : c = slash
    · subst hc
      rw [directories_slash_cons] at h
      exact fun name hName => h name (List.mem_of_mem_tail hName)
    · rw [directories_cons_of_ne hc] at h
      cases hDirectories : directories (d :: rest) with
      | nil => simp
      | cons first others =>
        rw [hDirectories] at h
        exact h

theorem cleanPath_slash_cons {t : Text} (h : ∀ name ∈ t.directories, name ≠ []) :
    cleanPath (slash :: t) = t := by
  have hTail : ∀ name ∈ (directories (slash :: t)).tail, name ≠ [] := by
    rwa [directories_slash_cons]
  rw [cleanPath, halveSlashes_eq_self hTail, dropLeadingSlash, if_pos rfl]

theorem cleanPath_eq_self {t : Text} (h : ∀ name ∈ t.directories, name ≠ []) :
    cleanPath t = t := by
  rw [cleanPath, halveSlashes_eq_self fun name hName => h name (List.mem_of_mem_tail hName)]
  cases t with
  | nil => rfl
  | cons c t =>
    by_cases hc : c = slash
    · subst hc
      rw [directories_slash_cons] at h
      exact absurd rfl (h [] List.mem_cons_self)
    · rw [dropLeadingSlash, if_neg hc]

/-- The slash behind a directory is cleaned away where the directory is the top. -/
theorem cleanPath_join (h : ∀ name ∈ (under names rest).directories, name ≠ []) :
    cleanPath (ofSegments names ++ slash :: rest) = under names rest := by
  cases names with
  | nil =>
    rw [under_nil] at h ⊢
    exact cleanPath_slash_cons h
  | cons name names =>
    rw [under_of_ne_nil (List.cons_ne_nil name names)] at h ⊢
    exact cleanPath_eq_self h

/-! ### Steps to the directory above -/

def Text.climbs (t : Text) : Nat := (t.segments.takeWhile fun step : Text => step = "..").length

def climbing : Nat → Text → Text
  | 0, rest => rest
  | n + 1, rest => "../" ++ climbing n rest

/-- The specifier that climbs so many directories and leads on to `rest`. -/
def relativeSpecifier (climbs : Nat) (rest : Text) : Text :=
  if climbs = 0 then "./" ++ rest else climbing climbs rest

theorem segments_step (t : Text) :
    segments (("../" : Text) ++ t) = (".." : Text) :: t.segments := by
  have hDots : slash ∉ (".." : Text) := by decide
  exact List.splitOn_append_cons_self_of_not_mem hDots t

theorem climbs_step (t : Text) : climbs (("../" : Text) ++ t) = t.climbs + 1 := by
  rw [climbs, segments_step, List.takeWhile_cons_of_pos (by decide), List.length_cons, climbs]

theorem segments_climbing (n : Nat) (rest : Text) :
    (climbing n rest).segments = List.replicate n (".." : Text) ++ rest.segments := by
  induction n with
  | zero => rfl
  | succ n ih => rw [climbing, segments_step, ih, List.replicate_succ, List.cons_append]

theorem climbs_climbing (n : Nat) (h : rest.climbs = 0) : (climbing n rest).climbs = n := by
  induction n with
  | zero => exact h
  | succ n ih => rw [climbing, climbs_step, ih]

/-- A text that climbs is two dots alone, or a step and what comes behind it. -/
theorem eq_or_step_of_climbs_pos (h : 0 < target.climbs) :
    target = ".." ∨ ∃ rest, target = ("../" : Text) ++ rest := by
  rw [← ofSegments_segments target]
  rw [climbs] at h
  cases hSegments : target.segments with
  | nil => exact absurd hSegments target.segments_ne_nil
  | cons first others =>
    have hFirst : first = ("..": Text) := by
      by_contra hne
      rw [hSegments, List.takeWhile_cons_of_neg (by simpa using hne)] at h
      cases h
    subst hFirst
    cases others with
    | nil =>
      left
      rw [ofSegments, List.intercalate_singleton]
    | cons second others =>
      right
      refine ⟨ofSegments (second :: others), ?_⟩
      rw [ofSegments, List.intercalate_cons_cons, ofSegments, List.append_assoc]
      rfl

/-! ### Joining -/

theorem segments_beforeLastSlash (h : source.directories ≠ []) :
    source.beforeLastSlash.segments = source.directories :=
  segments_ofSegments_of_notMem h fun _ hName =>
    slash_notMem_of_mem_segments (List.dropLast_subset _ hName)

theorem joinRelative_here (directory rest : Text) :
    joinRelative directory (("./" : Text) ++ rest) = directory ++ slash :: rest := by
  have hHere : startsWith (("./" : Text) ++ rest) "./" = true :=
    List.isPrefixOf_iff_prefix.mpr (List.prefix_append _ _)
  rw [joinRelative, if_pos hHere, List.append_assoc]
  rfl

theorem joinRelative_step (directory rest : Text) :
    joinRelative directory (("../" : Text) ++ rest) =
      if rest.climbs + 1 > directory.segments.length then []
      else ofSegments (directory.segments.take (directory.segments.length - (rest.climbs + 1))) ++
        slash :: ofSegments (rest.segments.drop rest.climbs) := by
  have hHere : startsWith (("../" : Text) ++ rest) "./" = false := rfl
  have hStep : startsWith (("../" : Text) ++ rest) "../" = true :=
    List.isPrefixOf_iff_prefix.mpr (List.prefix_append _ _)
  have hClimbs : ((List.takeWhile (fun step : Text => decide (step = ".."))
      (segments (("../" : Text) ++ rest))).length) = rest.climbs + 1 := climbs_step rest
  rw [joinRelative, hHere, if_neg Bool.false_ne_true, if_pos hStep]
  simp only [hClimbs]
  rw [segments_step, List.drop_succ_cons, List.append_assoc]
  rfl

/-- A step and what comes behind it, seen from below directories. -/
theorem joinRelative_climbing {n : Nat} (hPos : 0 < n) (hRest : rest.climbs = 0)
    (hLe : n ≤ source.directories.length) :
    joinRelative source.beforeLastSlash (climbing n rest) =
      ofSegments (source.directories.take (source.directories.length - n)) ++ slash :: rest := by
  obtain ⟨m, rfl⟩ := Nat.exists_eq_succ_of_ne_zero (Nat.ne_of_gt hPos)
  have hne : source.directories ≠ [] := List.ne_nil_of_length_pos (Nat.lt_of_lt_of_le hPos hLe)
  have hDrop : (List.replicate m (".." : Text) ++ rest.segments).drop m = rest.segments :=
    List.drop_left' List.length_replicate
  rw [climbing, joinRelative_step, segments_beforeLastSlash hne, climbs_climbing m hRest,
    segments_climbing, hDrop, ofSegments_segments, if_neg (by omega)]

/-! ### Written specifiers -/

theorem not_isPackageSpecifier_dot (t : Text) :
    ¬ isPackageSpecifier (CodePoint.ofChar '.' :: t) := by
  simp [isPackageSpecifier, startsWith, List.isPrefixOf, ofString]

theorem not_isPackageSpecifier_alias (t : Text) : ¬ isPackageSpecifier (("@/" : Text) ++ t) := by
  simp [isPackageSpecifier, startsWith, List.isPrefixOf, ofString]

theorem probedPath_dot (source t : Text) :
    probedPath source (CodePoint.ofChar '.' :: t) =
      cleanPath (joinRelative source.beforeLastSlash (CodePoint.ofChar '.' :: t)) := by
  have hAlias : startsWith (CodePoint.ofChar '.' :: t) "@/" = false := rfl
  rw [probedPath, expandAlias, hAlias, if_neg Bool.false_ne_true]

theorem relativeSpecifier_eq_dot_cons (climbs : Nat) (rest : Text) :
    ∃ t, relativeSpecifier climbs rest = CodePoint.ofChar '.' :: t := by
  cases climbs with
  | zero => exact ⟨_, rfl⟩
  | succ n => exact ⟨_, rfl⟩

theorem not_isPackageSpecifier_relativeSpecifier (climbs : Nat) (rest : Text) :
    ¬ isPackageSpecifier (relativeSpecifier climbs rest) := by
  obtain ⟨t, ht⟩ := relativeSpecifier_eq_dot_cons climbs rest
  rw [ht]
  exact not_isPackageSpecifier_dot t

/-- The specifier that climbs to the first `n` directories and leads on from there stands for what
it leads to below them. -/
theorem probedPath_relativeSpecifier {n : Nat} (hLe : n ≤ source.directories.length)
    (hRest : rest.climbs = 0)
    (hNames : ∀ name ∈ (under (source.directories.take n) rest).directories, name ≠ []) :
    probedPath source (relativeSpecifier (source.directories.length - n) rest) =
      under (source.directories.take n) rest := by
  have hJoin : joinRelative source.beforeLastSlash
      (relativeSpecifier (source.directories.length - n) rest) =
        ofSegments (source.directories.take n) ++ slash :: rest := by
    rw [relativeSpecifier]
    split
    · rename_i hSame
      rw [joinRelative_here, beforeLastSlash_eq, List.take_of_length_le (by omega)]
    · rename_i hClimbs
      rw [joinRelative_climbing (Nat.pos_of_ne_zero hClimbs) hRest (Nat.sub_le _ _),
        Nat.sub_sub_self hLe]
  obtain ⟨t, ht⟩ := relativeSpecifier_eq_dot_cons (source.directories.length - n) rest
  rw [ht] at hJoin ⊢
  rw [probedPath_dot, hJoin, cleanPath_join hNames]

theorem probedPath_alias
    (hNames : ∀ name ∈ directories (("src/" : Text) ++ rest), name ≠ []) :
    probedPath source (("@/" : Text) ++ rest) = ("src/" : Text) ++ rest := by
  have hAlias : expandAlias (("@/" : Text) ++ rest) = ("src/" : Text) ++ rest := rfl
  have hHere : startsWith (("src/" : Text) ++ rest) "./" = false := rfl
  have hStep : startsWith (("src/" : Text) ++ rest) "../" = false := rfl
  rw [probedPath, hAlias, joinRelative, hHere, hStep, if_neg Bool.false_ne_true,
    if_neg Bool.false_ne_true, cleanPath_eq_self hNames]

/-! ### Files and the specifiers that are written for them -/

def fileEndings : List Text := [".ts", ".tsx", ".js", ".jsx"]

def Text.below (t : Text) (n : Nat) : Text := ofSegments (t.segments.drop n)

/-- The way to `source` and the way to `path` share their first `n` directories, and from there the
way to `path` leads on and not up. -/
structure Text.Shares (source path : Text) (n : Nat) : Prop where
  le : n ≤ source.directories.length
  same : path.segments.take n = source.directories.take n
  further : n < path.segments.length
  onward : (path.below n).climbs = 0

/-- None of the paths that are tried before the one with this ending is a file. -/
def Snapshot.NoneBefore (files : Snapshot) (trunk ending : Text) : Prop :=
  ∀ earlier ∈ probeEndings.takeWhile (fun e => e ≠ ending), ¬ files.contains (trunk ++ earlier)

theorem slash_notMem_of_mem_fileEndings {ending : Text} (h : ending ∈ fileEndings) :
    slash ∉ ending := by
  revert ending
  decide

theorem mem_probeEndings_of_mem_fileEndings {ending : Text} (h : ending ∈ fileEndings) :
    ending ∈ probeEndings := by
  revert ending
  decide

theorem resolve_eq_confirmed_iff_noneBefore {trunk ending : Text}
    (hPackage : ¬ isPackageSpecifier target) (hEnding : ending ∈ probeEndings)
    (hProbed : probedPath source target = trunk) (hFile : files.contains (trunk ++ ending)) :
    resolve source target files = .confirmed (trunk ++ ending) ↔
      files.NoneBefore trunk ending := by
  subst hProbed
  rw [resolve_eq_confirmed_append_iff hPackage hEnding, Snapshot.NoneBefore]
  simp [hFile]

theorem resolve_eq_confirmed_of_probedPath (hPackage : ¬ isPackageSpecifier target)
    (hProbed : probedPath source target = path) (hFile : files.contains path) :
    resolve source target files = .confirmed path := by
  -- the path itself is tried first
  have hFirst : files.NoneBefore path [] := by
    intro earlier hEarlier
    exact absurd hEarlier List.not_mem_nil
  rw [← path.append_nil] at hFile ⊢
  exact (resolve_eq_confirmed_iff_noneBefore hPackage (by decide) hProbed hFile).mpr hFirst

theorem under_src (t : Text) : under [("src" : Text)] t = ("src/" : Text) ++ t := by
  rw [under_cons, under_nil]
  rfl

/-- An ending without a slash that a path ends in is an ending of what stands below directories. -/
theorem exists_below_eq_append {trunk ending : Text} (hEnding : slash ∉ ending)
    (hPath : under names rest = trunk ++ ending) :
    ∃ shorter, rest = shorter ++ ending ∧ under names shorter = trunk := by
  obtain ⟨shorter, rfl⟩ := suffix_of_suffix_under hEnding ⟨trunk, hPath.symm⟩
  rw [under_append] at hPath
  exact ⟨shorter, rfl, List.append_cancel_right hPath⟩

/-- A file is found under the specifier that climbs to any directory above both it and the importing
file and leads on from there, and under the alias where it stands in the source directory. Without
its ending it is found under the same specifiers unless a path that is tried before is a file. -/
theorem resolve_relativeSpecifier (hPath : path.IsProper) (hFile : files.contains path) :
    (∀ n, source.Shares path n →
      resolve source (relativeSpecifier (source.directories.length - n) (path.below n)) files =
        .confirmed path ∧
      ∀ ending ∈ fileEndings, ∀ trunk, path = trunk ++ ending →
        ∃ shorter, path.below n = shorter ++ ending ∧ (shorter.climbs = 0 →
          (resolve source (relativeSpecifier (source.directories.length - n) shorter) files =
            .confirmed path ↔ files.NoneBefore trunk ending))) ∧
    ∀ rest, path = ("src/" : Text) ++ rest →
      resolve source (("@/" : Text) ++ rest) files = .confirmed path ∧
      ∀ ending ∈ fileEndings, ∀ trunk, path = trunk ++ ending →
        ∃ shorter, rest = shorter ++ ending ∧
          (resolve source (("@/" : Text) ++ shorter) files = .confirmed path ↔
            files.NoneBefore trunk ending) := by
  have hNames : ∀ name ∈ path.directories, name ≠ [] :=
    fun name hName => hPath name (List.dropLast_subset _ hName)
  -- a path without its ending has the same directories
  have hTrunk : ∀ {trunk ending : Text}, ending ∈ fileEndings → path = trunk ++ ending →
      ∀ name ∈ trunk.directories, name ≠ [] := by
    rintro trunk ending hEnding rfl
    rwa [directories_append (slash_notMem_of_mem_fileEndings hEnding)] at hNames
  refine ⟨?relative, ?sourceAlias⟩
  case relative =>
    intro n hShares
    have hUnder : under (source.directories.take n) (path.below n) = path := by
      rw [← hShares.same, below, under_take_drop hShares.further]
    refine ⟨?_, ?_⟩
    · refine resolve_eq_confirmed_of_probedPath (not_isPackageSpecifier_relativeSpecifier _ _) ?_
        hFile
      rw [probedPath_relativeSpecifier hShares.le hShares.onward (hUnder.symm ▸ hNames), hUnder]
    · intro ending hEnding trunk hSplit
      obtain ⟨shorter, hBelow, hShorter⟩ := exists_below_eq_append
        (slash_notMem_of_mem_fileEndings hEnding) (hUnder.trans hSplit)
      refine ⟨shorter, hBelow, fun hOnward => ?_⟩
      have hProbed := probedPath_relativeSpecifier hShares.le hOnward
        (hShorter.symm ▸ hTrunk hEnding hSplit)
      rw [hShorter] at hProbed
      rw [hSplit] at hFile ⊢
      exact resolve_eq_confirmed_iff_noneBefore (not_isPackageSpecifier_relativeSpecifier _ _)
        (mem_probeEndings_of_mem_fileEndings hEnding) hProbed hFile
  case sourceAlias =>
    rintro rest rfl
    refine ⟨?_, ?_⟩
    · exact resolve_eq_confirmed_of_probedPath (not_isPackageSpecifier_alias rest)
        (probedPath_alias hNames) hFile
    · intro ending hEnding trunk hSplit
      obtain ⟨shorter, hRest, hShorter⟩ := exists_below_eq_append
        (slash_notMem_of_mem_fileEndings hEnding) ((under_src rest).trans hSplit)
      have hAlias : ("src/" : Text) ++ shorter = trunk := (under_src shorter).symm.trans hShorter
      have hProbed : probedPath source (("@/" : Text) ++ shorter) = trunk := by
        rw [probedPath_alias (hAlias.symm ▸ hTrunk hEnding hSplit), hAlias]
      refine ⟨shorter, hRest, ?_⟩
      rw [hSplit] at hFile ⊢
      exact resolve_eq_confirmed_iff_noneBefore (not_isPackageSpecifier_alias shorter)
        (mem_probeEndings_of_mem_fileEndings hEnding) hProbed hFile

/-- A repository with two files that differ in their endings. -/
def variantSnapshot : Snapshot := .ofList [("src/lib/util.js", []), ("src/lib/util.tsx", [])]

theorem resolve_relativeSpecifier_variant :
    Text.IsProper "src/lib/util.tsx" ∧ variantSnapshot.contains "src/lib/util.tsx" ∧
    Text.Shares "src/app/page.ts" "src/lib/util.tsx" 1 ∧
    variantSnapshot.NoneBefore "src/lib/util" ".tsx" ∧
    resolve "src/app/page.ts" "../lib/util.tsx" variantSnapshot = .confirmed "src/lib/util.tsx" ∧
    resolve "src/app/page.ts" "../lib/util" variantSnapshot = .confirmed "src/lib/util.tsx" ∧
    resolve "src/app/page.ts" "@/lib/util.tsx" variantSnapshot = .confirmed "src/lib/util.tsx" ∧
    resolve "src/app/page.ts" "@/lib/util" variantSnapshot = .confirmed "src/lib/util.tsx" := by
  have hProper : Text.IsProper "src/lib/util.tsx" := by decide
  have hFile : variantSnapshot.contains "src/lib/util.tsx" := by decide
  have hShares : Text.Shares "src/app/page.ts" "src/lib/util.tsx" 1 :=
    ⟨by decide, by decide, by decide, by decide⟩
  have hBefore : variantSnapshot.NoneBefore "src/lib/util" ".tsx" := by
    unfold Snapshot.NoneBefore
    decide
  have h := @resolve_relativeSpecifier "src/app/page.ts" _ _ hProper hFile
  obtain ⟨hWhole, hEnding⟩ := h.1 1 hShares
  obtain ⟨shorter, hBelow, hIff⟩ := hEnding ".tsx" (by decide) "src/lib/util" (by decide)
  have hSplit : ("lib/util.tsx" : Text) = ("lib/util" : Text) ++ ".tsx" := by decide
  have hShorter : shorter = "lib/util" := List.append_cancel_right (hBelow.symm.trans hSplit)
  subst hShorter
  obtain ⟨hAlias, hAliasEnding⟩ := h.2 "lib/util.tsx" (by decide)
  obtain ⟨shorter', hRest, hAliasIff⟩ := hAliasEnding ".tsx" (by decide) "src/lib/util" (by decide)
  have hShorter' : shorter' = "lib/util" := List.append_cancel_right (hRest.symm.trans hSplit)
  subst hShorter'
  exact ⟨hProper, hFile, hShares, hBefore, hWhole, (hIff (by decide)).mpr hBefore, hAlias,
    hAliasIff.mpr hBefore⟩

/-! ### Climbing out of the repository -/

theorem probedPath_here (source rest : Text) :
    probedPath source (("./" : Text) ++ rest) =
      cleanPath (source.beforeLastSlash ++ slash :: rest) :=
  (probedPath_dot source _).trans (congrArg cleanPath (joinRelative_here _ _))

theorem probedPath_step (source rest : Text) :
    probedPath source (("../" : Text) ++ rest) =
      cleanPath (joinRelative source.beforeLastSlash (("../" : Text) ++ rest)) :=
  probedPath_dot source _

/-- There is always a segment to climb from: the top counts as a directory without a name. -/
theorem length_segments_beforeLastSlash (source : Text) :
    source.beforeLastSlash.segments.length = max source.directories.length 1 := by
  by_cases h : source.directories = []
  · rw [beforeLastSlash_eq, h]
    rfl
  · have hPos := List.length_pos_iff.mpr h
    rw [segments_beforeLastSlash h]
    omega

theorem probedPath_of_climbs_gt (hClimbs : source.directories.length < target.climbs)
    (hTwo : 2 ≤ target.climbs) : probedPath source target = [] := by
  have hPos : 0 < target.climbs := by omega
  rcases eq_or_step_of_climbs_pos hPos with rfl | ⟨rest, rfl⟩
  · exact absurd hTwo (by decide)
  · rw [climbs_step] at hClimbs hTwo
    rw [probedPath_step, joinRelative_step, length_segments_beforeLastSlash, if_pos (by omega)]
    rfl

/-- From the top a single step leads to the top again. -/
theorem probedPath_step_of_top (hTop : source.directories = []) (hRest : rest.climbs = 0) :
    probedPath source (("../" : Text) ++ rest) = probedPath source (("./" : Text) ++ rest) := by
  have hLength := length_segments_beforeLastSlash source
  rw [hTop] at hLength
  rw [probedPath_here, probedPath_step, joinRelative_step, hRest, hLength,
    if_neg (by decide), List.drop_zero, ofSegments_segments, beforeLastSlash_eq, hTop]
  rfl

/-- A specifier with more steps than there are directories stands for nothing if it has two or more,
and is then unconfirmed, unless there is a file whose whole path is one of the endings that are
tried. With a single step there are no directories, and the step is passed over; and two dots alone
stand for themselves. -/
theorem resolve_climbing_out (hClimbs : source.directories.length < target.climbs) :
    (2 ≤ target.climbs → (∀ ending ∈ probeEndings, ¬ files.contains ending) →
      resolve source target files = .unconfirmed []) ∧
    (2 ≤ target.climbs → ∀ ending, probeEndings.find? files.contains = some ending →
      resolve source target files = .confirmed ending) ∧
    (∀ rest, target = ("../" : Text) ++ rest → rest.climbs = 0 →
      resolve source target files = resolve source (("./" : Text) ++ rest) files) ∧
    (target = ".." → probedPath source target = "..") := by
  have hPackage : ¬ isPackageSpecifier target := by
    have hPos : 0 < target.climbs := by omega
    rcases eq_or_step_of_climbs_pos hPos with rfl | ⟨rest, rfl⟩
    · exact not_isPackageSpecifier_dot _
    · exact not_isPackageSpecifier_dot _
  have hProbes : 2 ≤ target.climbs → probes source target = probeEndings := fun hTwo => by
    rw [probes, probedPath_of_climbs_gt hClimbs hTwo]
    rfl
  refine ⟨?noEnding, ?ending, ?single, ?dots⟩
  case noEnding =>
    intro hTwo hNone
    rw [resolve_of_not_package hPackage, hProbes hTwo, List.find?_eq_none.mpr hNone,
      probedPath_of_climbs_gt hClimbs hTwo]
  case ending =>
    intro hTwo ending hFound
    rw [resolve_of_not_package hPackage, hProbes hTwo, hFound]
  case single =>
    rintro rest rfl hRest
    rw [climbs_step, hRest] at hClimbs
    have hTop : source.directories = [] := List.eq_nil_of_length_eq_zero (by omega)
    have hHere : ¬ isPackageSpecifier (("./" : Text) ++ rest) := not_isPackageSpecifier_dot _
    rw [resolve_of_not_package hPackage, resolve_of_not_package hHere, probes, probes,
      probedPath_step_of_top hTop hRest]
  case dots =>
    rintro rfl
    have hNone : joinRelative source.beforeLastSlash (".." : Text) = ".." := rfl
    have hDots : probedPath source (".." : Text) = _ := probedPath_dot source _
    rw [hDots]
    exact congrArg cleanPath hNone

theorem resolve_climbing_out_two_steps :
    (directories "src/a.ts").length < Text.climbs "../../x" ∧ 2 ≤ Text.climbs "../../x" ∧
    (∀ ending ∈ probeEndings, ¬ variantSnapshot.contains ending) ∧
    resolve "src/a.ts" "../../x" variantSnapshot = .unconfirmed [] ∧
    resolve "src/a.ts" "../../x" (.ofList [(".ts", [])]) = .confirmed ".ts" ∧
    resolve "a.ts" "../b" variantSnapshot = resolve "a.ts" "./b" variantSnapshot ∧
    probedPath "a.ts" ".." = ".." := by
  have hClimbs : (directories "src/a.ts").length < Text.climbs "../../x" := by decide
  have hTwo : 2 ≤ Text.climbs "../../x" := by decide
  have hNone : ∀ ending ∈ probeEndings, ¬ variantSnapshot.contains ending := by decide
  have hFirst : probeEndings.find? (PathMap.ofList [((".ts" : Text), ([] : Text))]).contains =
      some ".ts" := by
    decide
  have hStep : (directories "a.ts").length < Text.climbs "../b" := by decide
  have hDots : (directories "a.ts").length < Text.climbs ".." := by decide
  exact ⟨hClimbs, hTwo, hNone, (resolve_climbing_out hClimbs).1 hTwo hNone,
    (resolve_climbing_out hClimbs).2.1 hTwo ".ts" hFirst,
    (resolve_climbing_out hStep).2.2.1 "b" (by decide) (by decide),
    (@resolve_climbing_out "a.ts" ".." variantSnapshot hDots).2.2.2 rfl⟩

/-- A specifier that climbs out of the repository may reach a file of it: from a file at the top one
step is one too many, and from anywhere a file that is named like an ending is found. -/
theorem climbing_out_reaches_files :
    Text.IsProper "a.ts" ∧ (directories "a.ts").length < Text.climbs "../b" ∧
    resolve "a.ts" "../b" (.ofList [("b.ts", [])]) = .confirmed "b.ts" ∧
    Text.IsProper "src/a.ts" ∧ (directories "src/a.ts").length < Text.climbs "../../b" ∧
    resolve "src/a.ts" "../../b" (.ofList [(".ts", [])]) = .confirmed ".ts" := by
  decide

end DependencyMap
