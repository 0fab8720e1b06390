import DependencyMap.Proofs.Specifiers

/-!
# Index files of directories

A file names a directory that it lies in by dots alone, or by dots with a slash behind them
(`directorySpecifiers`). With the slash, or with two steps or more, such a specifier stands for the
path of the directory with a slash behind it (`probedPath_climbing_dots`); a single step of dots
stands for itself. The endings of index files begin with a slash of their own, so the index file of
the directory is found under none of these specifiers (`resolve_directorySpecifier`). From one step
further up it is found under the name of the directory.
-/

namespace DependencyMap

open Text

variable {source target p rest : Text} {names : List Text} {files : Snapshot}

/-! ### Paths below directories -/

namespace Text

theorem segments_under (h : ∀ name ∈ names, slash ∉ name) (t : Text) :
    (under names t).segments = names ++ t.segments := by
  induction names with
  | nil => rw [under_nil, List.nil_append]
  | cons name names ih =>
    have hName : slash ∉ name := h name List.mem_cons_self
    rw [under_cons, segments, List.splitOn_append_cons_self_of_not_mem hName, ← segments,
      ih fun other hOther => h other (List.mem_cons_of_mem _ hOther), List.cons_append]

theorem directories_under (h : ∀ name ∈ names, slash ∉ name) (t : Text) :
    (under names t).directories = names ++ t.directories := by
  rw [directories, segments_under h, List.dropLast_append_of_ne_nil t.segments_ne_nil, directories]

theorem slash_notMem_of_mem_directories {piece : Text} (h : piece ∈ source.directories) :
    slash ∉ piece :=
  slash_notMem_of_mem_segments (List.dropLast_subset _ h)

/-- A path that lies in the directory, or is the path of the directory itself, perhaps with the
ending of a file behind it. -/
def BelongsTo (p : Text) (names : List Text) : Prop :=
  names <+: p.directories ∨
    names ≠ [] ∧ ∃ ending ∈ [] :: fileEndings, p = ofSegments names ++ ending

instance (p : Text) (names : List Text) : Decidable (p.BelongsTo names) :=
  inferInstanceAs (Decidable (_ ∨ _))

theorem belongsTo_under (h : ∀ name ∈ names, slash ∉ name) (t : Text) :
    (under names t).BelongsTo names := by
  left
  rw [directories_under h]
  exact List.prefix_append _ _

theorem under_right_injective (h : under names p = under names rest) : p = rest := by
  induction names with
  | nil => rwa [under_nil, under_nil] at h
  | cons name names ih =>
    rw [under_cons, under_cons] at h
    exact ih (List.cons_eq_cons.mp (List.append_cancel_left h)).2

end Text

/-- The index file of a directory is a file of the snapshot, and no other file belongs to the
directory. -/
structure Snapshot.HasOnlyIndex (files : Snapshot) (names : List Text) : Prop where
  index : files.contains (under names "index.ts")
  only : ∀ file ∈ files.entries, file.1.BelongsTo names → file.1 = under names "index.ts"

theorem Snapshot.HasOnlyIndex.eq_of_contains (h : files.HasOnlyIndex names)
    (hFile : files.contains p) (hBelongs : p.BelongsTo names) : p = under names "index.ts" := by
  obtain ⟨text, hMem⟩ := PathMap.contains_iff.mp hFile
  exact h.only _ hMem hBelongs

/-! ### Specifiers of dots -/

/-- How a file names the directory that lies so many steps above its own: with dots alone, and with
a slash behind them. -/
def directorySpecifiers : (climbs : Nat) → List Text
  | 0 => [".", "./"]
  | n + 1 => [climbing n "..", climbing n "../"]

theorem climbing_step (n : Nat) (rest : Text) :
    climbing n (("../" : Text) ++ rest) = climbing (n + 1) rest := by
  induction n with
  | zero => rfl
  | succ n ih =>
    show ("../" : Text) ++ climbing n (("../" : Text) ++ rest) =
      ("../" : Text) ++ climbing (n + 1) rest
    rw [ih]

theorem climbs_climbing_dots (n : Nat) : (climbing n "..").climbs = n + 1 := by
  induction n with
  | zero => rfl
  | succ n ih => rw [climbing, climbs_step, ih]

/-- With two steps or more the slash behind the dots makes no difference. -/
theorem probedPath_climbing_dots (source : Text) (n : Nat) :
    probedPath source (climbing (n + 1) "..") = probedPath source (climbing (n + 2) []) := by
  have hDots : (climbing n "..").segments.drop (n + 1) = [] := by
    apply List.drop_eq_nil_of_le
    rw [segments_climbing, List.length_append, List.length_replicate]
    exact Nat.le_refl _
  have hSlash : (climbing (n + 1) []).segments.drop (n + 1) = [[]] := by
    rw [segments_climbing]
    exact List.drop_left' List.length_replicate
  have hClimbs : (climbing (n + 1) []).climbs = n + 1 := climbs_climbing (n + 1) rfl
  have hJoin : joinRelative source.beforeLastSlash (climbing (n + 1) "..") =
      joinRelative source.beforeLastSlash (climbing (n + 2) []) := by
    rw [climbing, joinRelative_step, climbs_climbing_dots, hDots, climbing, joinRelative_step,
      hClimbs, hSlash]
    rfl
  have hPath (m : Nat) (rest : Text) : probedPath source (climbing (m + 1) rest) =
      cleanPath (joinRelative source.beforeLastSlash (climbing (m + 1) rest)) :=
    probedPath_step _ _
  rw [hPath, hPath, hJoin]

theorem not_isPackageSpecifier_of_mem {k : Nat} (h : target ∈ directorySpecifiers k) :
    ¬ isPackageSpecifier target := by
  have hClimbing (n : Nat) {c : Text} (hc : ∃ t, c = CodePoint.ofChar '.' :: t) :
      ¬ isPackageSpecifier (climbing n c) := by
    cases n with
    | zero =>
      obtain ⟨t, rfl⟩ := hc
      exact not_isPackageSpecifier_dot t
    | succ n => exact not_isPackageSpecifier_dot _
  cases k with
  | zero =>
    rcases List.mem_pair.mp h with rfl | rfl
    · exact not_isPackageSpecifier_dot _
    · exact not_isPackageSpecifier_dot _
  | succ n =>
    rcases List.mem_pair.mp h with rfl | rfl
    · exact hClimbing n ⟨_, rfl⟩
    · exact hClimbing n ⟨_, rfl⟩

section Directory

variable {k : Nat}

theorem slash_notMem_of_take_eq
    (hNames : source.directories.take (source.directories.length - k) = names) :
    ∀ name ∈ names, slash ∉ name := by
  intro name hName
  rw [← hNames] at hName
  exact slash_notMem_of_mem_directories (List.mem_of_mem_take hName)

/-- The directories of a path that lies in one of the directories of a proper path have names. -/
theorem ne_nil_of_mem_directories_under (hSource : source.IsProper) (n : Nat)
    (hRest : slash ∉ rest) :
    ∀ name ∈ (under (source.directories.take n) rest).directories, name ≠ [] := by
  intro name hName
  have hSlash : ∀ other ∈ source.directories.take n, slash ∉ other := fun other hOther =>
    slash_notMem_of_mem_directories (List.mem_of_mem_take hOther)
  have hHere : rest.directories = [] := by
    rw [directories, segments_of_notMem hRest]
    rfl
  rw [directories_under hSlash, hHere, List.append_nil] at hName
  exact hSource name (List.dropLast_subset _ (List.mem_of_mem_take hName))

/-- What a specifier of dots stands for, other than one or two dots alone. -/
theorem probedPath_directorySpecifier (hSource : source.IsProper)
    (hLe : k ≤ source.directories.length)
    (hNames : source.directories.take (source.directories.length - k) = names)
    (hTarget : target ∈ directorySpecifiers k) (hHere : target ≠ ".") (hAbove : target ≠ "..") :
    probedPath source target = under names [] := by
  have hWay : probedPath source (relativeSpecifier k []) = under names [] := by
    have hPath := probedPath_relativeSpecifier (Nat.sub_le source.directories.length k) rfl
      (ne_nil_of_mem_directories_under hSource _ List.not_mem_nil)
    rwa [Nat.sub_sub_self hLe, hNames] at hPath
  cases k with
  | zero =>
    rcases List.mem_pair.mp hTarget with rfl | rfl
    · exact absurd rfl hHere
    · exact hWay
  | succ n =>
    rcases List.mem_pair.mp hTarget with rfl | rfl
    · cases n with
      | zero => exact absurd rfl hAbove
      | succ n =>
        rw [probedPath_climbing_dots]
        exact hWay
    · have hText : climbing n ("../" : Text) = climbing (n + 1) [] := climbing_step n []
      rw [hText]
      exact hWay

/-- Dots alone are left as they are. -/
theorem probedPath_dots (source : Text) (h : target = "." ∨ target = "..") :
    probedPath source target = target := by
  rcases h with rfl | rfl
  · exact (probedPath_dot source _).trans rfl
  · exact (probedPath_dot source _).trans rfl

/-! ### Index files -/

/-- No path that begins in the directory with an empty name is a file. -/
theorem resolve_eq_unconfirmed_of_hasOnlyIndex (hSlash : ∀ name ∈ names, slash ∉ name)
    (hIndex : files.HasOnlyIndex names) (hPackage : ¬ isPackageSpecifier target)
    (hProbed : probedPath source target = under names []) :
    resolve source target files = .unconfirmed (under names []) := by
  have hNone : (probes source target).find? files.contains = none := by
    rw [List.find?_eq_none]
    intro candidate hCandidate hFile
    obtain ⟨ending, hEnding, rfl⟩ := List.mem_map.mp hCandidate
    rw [hProbed, ← under_append, List.nil_append] at hFile
    have hEq := under_right_injective (hIndex.eq_of_contains hFile (belongsTo_under hSlash ending))
    rw [hEq] at hEnding
    exact absurd hEnding (by decide)
  rw [resolve_of_not_package hPackage, hNone, hProbed]

/-- Dots alone find the index file of a directory only if its path is written with the same dots. -/
theorem eq_of_resolve_dots (hSlash : ∀ name ∈ names, slash ∉ name)
    (hDots : target = "." ∨ target = "..")
    (h : resolve source target files = .confirmed (under names "index.ts")) : names = [target] := by
  have hPackage : ¬ isPackageSpecifier target := by
    rcases hDots with rfl | rfl
    · exact not_isPackageSpecifier_dot _
    · exact not_isPackageSpecifier_dot _
  have hEndings : ∀ dots ∈ ([".", ".."] : List Text), ∀ ending ∈ probeEndings,
      segments (dots ++ ending) = (segments (dots ++ ending)).dropLast ++ [("index.ts" : Text)] →
        (segments (dots ++ ending)).dropLast = [dots] := by
    decide
  have hMem : under names "index.ts" ∈ probes source target :=
    mem_probes_of_resolve_eq_confirmed hPackage h
  obtain ⟨ending, hEnding, hPath⟩ := List.mem_map.mp hMem
  rw [probedPath_dots source hDots] at hPath
  have hSegments : segments (target ++ ending) = names ++ [("index.ts" : Text)] := by
    rw [hPath, segments_under hSlash]
    rfl
  have hNames : names = (segments (target ++ ending)).dropLast := by
    rw [hSegments, List.dropLast_concat]
  rw [hNames]
  apply hEndings target (List.mem_pair.mpr hDots) ending hEnding
  rw [← hNames, hSegments]

/-- What stands for the directory without a slash behind it finds the index file. -/
theorem resolve_eq_index_of_hasOnlyIndex (hne : names ≠ []) (hIndex : files.HasOnlyIndex names)
    (hPackage : ¬ isPackageSpecifier target)
    (hProbed : probedPath source target = ofSegments names) :
    resolve source target files = .confirmed (under names "index.ts") := by
  have hPath : under names "index.ts" = ofSegments names ++ ("/index.ts" : Text) :=
    under_of_ne_nil hne "index.ts"
  have hEndings : ∀ e ∈ probeEndings.takeWhile (fun e : Text => e ≠ "/index.ts"),
      e ∈ [] :: fileEndings := by decide
  have hBefore : files.NoneBefore (ofSegments names) "/index.ts" := by
    intro earlier hEarlier hFile
    have hEnding := hEndings earlier hEarlier
    have hEq := hIndex.eq_of_contains hFile (Or.inr ⟨hne, earlier, hEnding, rfl⟩)
    rw [hPath] at hEq
    rw [List.append_cancel_left hEq] at hEnding
    exact absurd hEnding (by decide)
  rw [hPath]
  exact (resolve_eq_confirmed_iff_noneBefore hPackage (by decide) hProbed
    (hPath ▸ hIndex.index)).mpr hBefore

/-- From one step further up the index file is found under the name of the directory. -/
theorem resolve_name_of_hasOnlyIndex {before : List Text} {name : Text} (hSource : source.IsProper)
    (hLe : k ≤ source.directories.length)
    (hNames : source.directories.take (source.directories.length - k) = before ++ [name])
    (hIndex : files.HasOnlyIndex (before ++ [name])) (hDots : name ≠ "..") :
    resolve source (relativeSpecifier (k + 1) name) files =
      .confirmed (under (before ++ [name]) "index.ts") := by
  have hSlash : slash ∉ name :=
    slash_notMem_of_take_eq hNames name (List.mem_append_right _ List.mem_cons_self)
  have hOnward : name.climbs = 0 := by
    rw [Text.climbs, segments_of_notMem hSlash, List.takeWhile_cons_of_neg (by simpa using hDots),
      List.length_nil]
  have hLength : before.length + 1 = source.directories.length - k := by
    have hTake := congrArg List.length hNames
    rw [List.length_take, List.length_append, List.length_singleton] at hTake
    omega
  have hBefore : source.directories.take before.length = before := by
    have hTake := congrArg (List.take before.length) hNames
    rwa [List.take_take, List.take_left' rfl, Nat.min_eq_left (by omega)] at hTake
  have hClimbs : source.directories.length - before.length = k + 1 := by omega
  apply resolve_eq_index_of_hasOnlyIndex (by simp) hIndex
    (not_isPackageSpecifier_relativeSpecifier _ _)
  have hPath := probedPath_relativeSpecifier (n := before.length) (by omega) hOnward
    (ne_nil_of_mem_directories_under hSource _ hSlash)
  rwa [hClimbs, hBefore] at hPath

/-- A specifier of dots does not find the index file of the directory that it names, whether a slash
stands behind the dots or not, unless the path of the directory is written like the specifier. One
step further up the index file is found under the name of the directory. -/
theorem resolve_directorySpecifier (hSource : source.IsProper)
    (hLe : k ≤ source.directories.length)
    (hNames : source.directories.take (source.directories.length - k) = names)
    (hIndex : files.HasOnlyIndex names) :
    (∀ target ∈ directorySpecifiers k, target ≠ "." → target ≠ ".." →
      resolve source target files = .unconfirmed (under names [])) ∧
    (∀ target ∈ directorySpecifiers k,
      resolve source target files = .confirmed (under names "index.ts") ↔
        (target = "." ∨ target = "..") ∧ names = [target]) ∧
    ∀ name, names.getLast? = some name → name ≠ ".." →
      resolve source (relativeSpecifier (k + 1) name) files =
        .confirmed (under names "index.ts") := by
  have hSlash := slash_notMem_of_take_eq hNames
  have hMissed : ∀ target ∈ directorySpecifiers k, target ≠ "." → target ≠ ".." →
      resolve source target files = .unconfirmed (under names []) := by
    intro target hTarget hHere hAbove
    exact resolve_eq_unconfirmed_of_hasOnlyIndex hSlash hIndex
      (not_isPackageSpecifier_of_mem hTarget)
      (probedPath_directorySpecifier hSource hLe hNames hTarget hHere hAbove)
  refine ⟨hMissed, ?found, ?named⟩
  case found =>
    intro target hTarget
    have hPackage := not_isPackageSpecifier_of_mem hTarget
    by_cases hDots : target = "." ∨ target = ".."
    · constructor
      · intro hFound
        refine ⟨hDots, ?_⟩
        exact eq_of_resolve_dots hSlash hDots hFound
      · rintro ⟨-, rfl⟩
        apply resolve_eq_index_of_hasOnlyIndex (List.cons_ne_nil _ _) hIndex hPackage
        rw [probedPath_dots source hDots, ofSegments, List.intercalate_singleton]
    · obtain ⟨hHere, hAbove⟩ := not_or.mp hDots
      rw [hMissed target hTarget hHere hAbove]
      simp [hDots]
  case named =>
    intro name hName hDots
    obtain ⟨before, rfl⟩ := List.getLast?_eq_some_iff.mp hName
    exact resolve_name_of_hasOnlyIndex hSource hLe hNames hIndex hDots

end Directory

/-- A repository whose only file is the index file of its source directory. -/
def indexSnapshot : Snapshot := .ofList [("src/index.ts", [])]

theorem hasOnlyIndex_indexSnapshot : indexSnapshot.HasOnlyIndex ["src"] :=
  ⟨by decide, by decide⟩

theorem resolve_directorySpecifier_src :
    Text.IsProper "src/app/ui/a.ts" ∧ 2 ≤ (directories "src/app/ui/a.ts").length ∧
    (directories "src/app/ui/a.ts").take 1 = ["src"] ∧ indexSnapshot.HasOnlyIndex ["src"] ∧
    (∀ target ∈ (["../..", "../../"] : List Text),
      resolve "src/app/ui/a.ts" target indexSnapshot = .unconfirmed "src/") ∧
    resolve "src/app/ui/a.ts" "../../../src" indexSnapshot = .confirmed "src/index.ts" := by
  have hProper : Text.IsProper "src/app/ui/a.ts" := by decide
  have hLe : 2 ≤ (directories "src/app/ui/a.ts").length := by decide
  have hNames : (directories "src/app/ui/a.ts").take 1 = ["src"] := by decide
  obtain ⟨hMissed, -, hNamed⟩ :=
    resolve_directorySpecifier hProper hLe hNames hasOnlyIndex_indexSnapshot
  refine ⟨hProper, hLe, hNames, hasOnlyIndex_indexSnapshot, ?_, ?_⟩
  · intro target hTarget
    have hDots : ∀ t ∈ (["../..", "../../"] : List Text),
        t ∈ directorySpecifiers 2 ∧ t ≠ "." ∧ t ≠ ".." := by decide
    obtain ⟨hMem, hHere, hAbove⟩ := hDots target hTarget
    exact hMissed target hMem hHere hAbove
  · exact hNamed "src" (by decide) (by decide)

/-- Under none of its specifiers the index file of a directory is found, from within the directory,
from one step below and from two. -/
theorem index_file_is_missed :
    indexSnapshot.HasOnlyIndex ["src"] ∧
    (Text.IsProper "src/a.ts" ∧ (directories "src/a.ts").take (1 - 0) = ["src"] ∧
      ∀ target ∈ directorySpecifiers 0,
        resolve "src/a.ts" target indexSnapshot ≠ .confirmed "src/index.ts") ∧
    (Text.IsProper "src/app/a.ts" ∧ (directories "src/app/a.ts").take (2 - 1) = ["src"] ∧
      ∀ target ∈ directorySpecifiers 1,
        resolve "src/app/a.ts" target indexSnapshot ≠ .confirmed "src/index.ts") ∧
    Text.IsProper "src/app/ui/a.ts" ∧ (directories "src/app/ui/a.ts").take (3 - 2) = ["src"] ∧
      ∀ target ∈ directorySpecifiers 2,
        resolve "src/app/ui/a.ts" target indexSnapshot ≠ .confirmed "src/index.ts" := by
  refine ⟨hasOnlyIndex_indexSnapshot, ?_⟩
  decide

end DependencyMap
