import DependencyMap.Proofs.Specifiers

/-!
# Slashes that are written more than once

Cleaning halves each run of slashes and then drops one slash in front, so that it leaves a clean
path just where no three slashes follow one another (`isClean_cleanPath_iff`). There it does what
`squeezeSlashes` does, which leaves one slash of each run: specifiers that differ in the lengths of
their runs alone stand for the same path, if they climb the same number of steps
(`probedPath_eq_of_squeezeSlashes_eq`). A path that is put together from a file's directory and a
specifier has no three slashes in a row unless the path of the file has two or the specifier three.
-/

namespace DependencyMap

open Text

variable {source target target' t s rest rest' : Text}

/-! ### Clean paths -/

/-- A path without two slashes in a row that does not begin with one. -/
structure Text.IsClean (t : Text) : Prop where
  single : ¬ ("//" : Text) <:+: t
  inner : ¬ ("/" : Text) <+: t

theorem head?_halveSlashes (t : Text) : (halveSlashes t).head? = t.head? := by
  fun_cases halveSlashes t with
  | case1 => rfl
  | case2 => rfl
  | case3 c d rest hSlashes => rw [hSlashes.1, List.head?_cons, List.head?_cons]
  | case4 c d rest hSlashes => rfl

theorem singleton_prefix_iff {sign : CodePoint} : [sign] <+: t ↔ t.head? = some sign := by
  cases t with
  | nil => simp
  | cons c t => simp [eq_comm]

theorem slash_prefix_iff : ("/" : Text) <+: t ↔ t.head? = some slash := singleton_prefix_iff

theorem doubleSlash_prefix_cons_iff {c : CodePoint} :
    ("//" : Text) <+: c :: t ↔ c = slash ∧ t.head? = some slash := by
  have hCons : ("//" : Text) = slash :: ("/" : Text) := rfl
  rw [hCons, List.cons_prefix_cons, slash_prefix_iff, eq_comm]

theorem tripleSlash_prefix_cons_iff {c : CodePoint} :
    ("///" : Text) <+: c :: t ↔ c = slash ∧ ("//" : Text) <+: t := by
  have hCons : ("///" : Text) = slash :: ("//" : Text) := rfl
  rw [hCons, List.cons_prefix_cons, eq_comm]

/-- Halving leaves two slashes in a row just where there were three. -/
theorem doubleSlash_infix_halveSlashes_iff :
    ("//" : Text) <:+: halveSlashes t ↔ ("///" : Text) <:+: t := by
  fun_induction halveSlashes t with
  | case1 => decide
  | case2 c =>
    refine iff_of_false (fun h => ?_) (fun h => ?_)
    · exact absurd h.length_le (by simp [ofString])
    · exact absurd h.length_le (by simp [ofString])
  | case3 c d rest hSlashes ih =>
    obtain ⟨rfl, rfl⟩ := hSlashes
    have hHead : ("//" : Text) <+: rest → rest.head? = some slash := by
      cases rest with
      | nil => exact fun h => absurd h.length_le (by decide)
      | cons e rest => exact fun h => congrArg some (doubleSlash_prefix_cons_iff.mp h).1
    rw [List.infix_cons_iff, doubleSlash_prefix_cons_iff, head?_halveSlashes, ih,
      List.infix_cons_iff, @List.infix_cons_iff _ _ slash rest,
      tripleSlash_prefix_cons_iff, tripleSlash_prefix_cons_iff, doubleSlash_prefix_cons_iff]
    constructor
    · rintro (hRun | hLater)
      · exact Or.inl ⟨rfl, hRun⟩
      · exact Or.inr (Or.inr hLater)
    · rintro (⟨-, hRun⟩ | ⟨-, hRun⟩ | hLater)
      · exact Or.inl hRun
      · exact Or.inl ⟨rfl, hHead hRun⟩
      · exact Or.inr hLater
  | case4 c d rest hSlashes ih =>
    rw [List.infix_cons_iff, doubleSlash_prefix_cons_iff, head?_halveSlashes, ih,
      @List.infix_cons_iff _ _ c, tripleSlash_prefix_cons_iff, doubleSlash_prefix_cons_iff,
      List.head?_cons]
    constructor
    · rintro (⟨hc, hd⟩ | hLater)
      · exact absurd ⟨hc, Option.some.inj hd⟩ hSlashes
      · exact Or.inr hLater
    · rintro (⟨hc, hd, -⟩ | hLater)
      · exact absurd ⟨hc, hd⟩ hSlashes
      · exact Or.inr hLater

theorem isClean_dropLeadingSlash_iff :
    (dropLeadingSlash t).IsClean ↔ ¬ ("//" : Text) <:+: t := by
  cases t with
  | nil => exact iff_of_true ⟨by decide, by decide⟩ (by decide)
  | cons c t =>
    rw [dropLeadingSlash, List.infix_cons_iff, doubleSlash_prefix_cons_iff]
    split
    · rename_i hc
      constructor
      · rintro ⟨hSingle, hInner⟩ (⟨-, hHead⟩ | hLater)
        · exact hInner (slash_prefix_iff.mpr hHead)
        · exact hSingle hLater
      · intro h
        obtain ⟨hHead, hLater⟩ := not_or.mp h
        exact ⟨hLater, fun hPrefix => hHead ⟨hc, slash_prefix_iff.mp hPrefix⟩⟩
    · rename_i hc
      constructor
      · rintro ⟨hSingle, -⟩ (⟨hSlash, -⟩ | hLater)
        · exact hc hSlash
        · exact hSingle (List.infix_cons_iff.mpr (Or.inr hLater))
      · intro h
        refine ⟨fun hInfix => h ?_, fun hPrefix => ?_⟩
        · exact (List.infix_cons_iff.mp hInfix).imp_left doubleSlash_prefix_cons_iff.mp
        · exact hc (Option.some.inj (slash_prefix_iff.mp hPrefix))

/-- Cleaning is enough for all but three slashes in a row. -/
theorem isClean_cleanPath_iff : (cleanPath t).IsClean ↔ ¬ ("///" : Text) <:+: t := by
  rw [cleanPath, isClean_dropLeadingSlash_iff, doubleSlash_infix_halveSlashes_iff]

theorem length_halveSlashes_le (t : Text) : (halveSlashes t).length ≤ t.length := by
  fun_induction halveSlashes t with
  | case1 => exact Nat.le_refl _
  | case2 => exact Nat.le_refl _
  | case3 c d rest hSlashes ih =>
    simp only [List.length_cons]
    omega
  | case4 c d rest hSlashes ih =>
    simp only [List.length_cons] at ih ⊢
    omega

theorem halveSlashes_eq_self_iff : halveSlashes t = t ↔ ¬ ("//" : Text) <:+: t := by
  fun_induction halveSlashes t with
  | case1 => exact iff_of_true rfl (by decide)
  | case2 c =>
    refine iff_of_true rfl fun h => ?_
    exact absurd h.length_le (by simp [ofString])
  | case3 c d rest hSlashes ih =>
    obtain ⟨rfl, rfl⟩ := hSlashes
    refine iff_of_false (fun h => ?_) (not_not.mpr ?_)
    · have hLength := congrArg List.length h
      have hLe := length_halveSlashes_le rest
      simp only [List.length_cons] at hLength
      omega
    · exact (doubleSlash_prefix_cons_iff.mpr ⟨rfl, rfl⟩).isInfix
  | case4 c d rest hSlashes ih =>
    rw [List.cons_eq_cons, List.infix_cons_iff, doubleSlash_prefix_cons_iff, ih, List.head?_cons]
    constructor
    · rintro ⟨-, hLater⟩ (⟨hc, hd⟩ | hHere)
      · exact hSlashes ⟨hc, Option.some.inj hd⟩
      · exact hLater hHere
    · exact fun h => ⟨rfl, fun hLater => h (Or.inr hLater)⟩

/-- Clean paths are those that cleaning leaves as they are. -/
theorem isClean_iff_cleanPath_eq_self : t.IsClean ↔ cleanPath t = t := by
  constructor
  · rintro ⟨hSingle, hInner⟩
    rw [cleanPath, halveSlashes_eq_self_iff.mpr hSingle]
    cases t with
    | nil => rfl
    | cons c t =>
      rw [dropLeadingSlash, if_neg]
      rintro rfl
      exact hInner (slash_prefix_iff.mpr rfl)
  · intro h
    have hLe := length_halveSlashes_le t
    have hLength := congrArg List.length h
    rw [cleanPath] at hLength h
    cases hHalved : halveSlashes t with
    | nil =>
      rw [hHalved] at h
      subst h
      exact ⟨by decide, by decide⟩
    | cons c u =>
      rw [hHalved] at h hLength hLe
      rw [dropLeadingSlash] at h hLength
      split at h
      · -- a slash in front is lost, and nothing is longer after halving
        rename_i hc
        rw [if_pos hc] at hLength
        simp only [List.length_cons] at hLe
        omega
      · rename_i hc
        rw [h] at hHalved
        refine ⟨halveSlashes_eq_self_iff.mp hHalved, fun hPrefix => ?_⟩
        rw [← h] at hPrefix
        exact hc (Option.some.inj (slash_prefix_iff.mp hPrefix))

/-! ### One slash for each run -/

def squeezeSlashes : Text → Text
  | [] => []
  | [c] => [c]
  | c :: d :: rest =>
    if c = '/' ∧ d = '/' then squeezeSlashes (d :: rest) else c :: squeezeSlashes (d :: rest)

theorem squeezeSlashes_cons_of_ne {c : CodePoint} (hc : c ≠ slash) (t : Text) :
    squeezeSlashes (c :: t) = c :: squeezeSlashes t := by
  cases t with
  | nil => rfl
  | cons d t => rw [squeezeSlashes, if_neg fun h => hc h.1]

theorem squeezeSlashes_slash_cons (t : Text) :
    squeezeSlashes (slash :: t) =
      if t.head? = some slash then squeezeSlashes t else slash :: squeezeSlashes t := by
  cases t with
  | nil => rfl
  | cons d t =>
    by_cases hd : d = slash
    · rw [squeezeSlashes, if_pos ⟨rfl, hd⟩, List.head?_cons, if_pos (congrArg some hd)]
    · rw [squeezeSlashes, if_neg fun h => hd h.2, List.head?_cons,
        if_neg fun h => hd (Option.some.inj h)]

theorem head?_squeezeSlashes (t : Text) : (squeezeSlashes t).head? = t.head? := by
  fun_induction squeezeSlashes t with
  | case1 => rfl
  | case2 => rfl
  | case3 c d rest hSlashes ih => rw [ih, List.head?_cons, List.head?_cons, hSlashes.1, hSlashes.2]
  | case4 c d rest hSlashes ih => rfl

/-- Halving leaves one slash of each run of two. -/
theorem halveSlashes_eq_squeezeSlashes (h : ¬ ("///" : Text) <:+: t) :
    halveSlashes t = squeezeSlashes t := by
  fun_induction halveSlashes t with
  | case1 => rfl
  | case2 => rfl
  | case3 c d rest hSlashes ih =>
    obtain ⟨rfl, rfl⟩ := hSlashes
    have hRest : ¬ ("///" : Text) <:+: rest := fun hInfix =>
      h (hInfix.trans (List.suffix_append [slash, slash] rest).isInfix)
    have hHead : rest.head? ≠ some slash := by
      intro hHead
      have hRun : ("//" : Text) <+: slash :: rest :=
        doubleSlash_prefix_cons_iff.mpr ⟨rfl, hHead⟩
      exact h (tripleSlash_prefix_cons_iff.mpr ⟨rfl, hRun⟩).isInfix
    rw [ih hRest, squeezeSlashes_slash_cons, List.head?_cons, if_pos rfl,
      squeezeSlashes_slash_cons, if_neg hHead]
  | case4 c d rest hSlashes ih =>
    have hRest : ¬ ("///" : Text) <:+: d :: rest := fun hInfix =>
      h (List.infix_cons_iff.mpr (Or.inr hInfix))
    rw [ih hRest, squeezeSlashes, if_neg hSlashes]

theorem squeezeSlashes_append_of_notMem (hs : slash ∉ s) (t : Text) :
    squeezeSlashes (s ++ t) = s ++ squeezeSlashes t := by
  induction s with
  | nil => rfl
  | cons c s ih =>
    obtain ⟨hc, hs⟩ := not_or.mp (mt List.mem_cons.mpr hs)
    rw [List.cons_append, squeezeSlashes_cons_of_ne (Ne.symm hc), ih hs, List.cons_append]

/-- What stands before a slash is squeezed alike whatever stands behind it. -/
theorem squeezeSlashes_append_congr (s : Text)
    (h : squeezeSlashes (slash :: rest) = squeezeSlashes (slash :: rest')) :
    squeezeSlashes (s ++ slash :: rest) = squeezeSlashes (s ++ slash :: rest') := by
  induction s with
  | nil => exact h
  | cons c s ih =>
    rw [List.cons_append, List.cons_append]
    by_cases hc : c = slash
    · subst hc
      have hHead : (s ++ slash :: rest).head? = (s ++ slash :: rest').head? := by
        cases s with
        | nil => rfl
        | cons d s => rfl
      rw [squeezeSlashes_slash_cons, squeezeSlashes_slash_cons, hHead, ih]
    · rw [squeezeSlashes_cons_of_ne hc, squeezeSlashes_cons_of_ne hc, ih]

/-- A beginning that ends in a slash is kept. -/
theorem prefix_squeezeSlashes_iff (hs : slash ∉ s) :
    s ++ [slash] <+: squeezeSlashes t ↔ s ++ [slash] <+: t := by
  induction s generalizing t with
  | nil =>
    have hSlash : [] ++ [slash] = ("/" : Text) := rfl
    rw [hSlash, slash_prefix_iff, slash_prefix_iff, head?_squeezeSlashes]
  | cons c s ih =>
    obtain ⟨hc, hs⟩ := not_or.mp (mt List.mem_cons.mpr hs)
    cases t with
    | nil => rfl
    | cons d t =>
      by_cases hd : d = slash
      · subst hd
        have hHead := head?_squeezeSlashes (slash :: t)
        refine iff_of_false (fun h => ?_) (fun h => ?_)
        · obtain ⟨u, hu⟩ := h
          rw [← hu, List.cons_append, List.cons_append, List.head?_cons, List.head?_cons] at hHead
          exact hc (Option.some.inj hHead).symm
        · exact hc (List.cons_prefix_cons.mp h).1.symm
      · rw [squeezeSlashes_cons_of_ne hd, List.cons_append, List.cons_prefix_cons,
          List.cons_prefix_cons, ih hs]

theorem startsWith_squeezeSlashes (hs : slash ∉ s) (t : Text) :
    startsWith (squeezeSlashes t) (s ++ [slash]) = startsWith t (s ++ [slash]) := by
  rw [startsWith, startsWith, Bool.eq_iff_iff, List.isPrefixOf_iff_prefix,
    List.isPrefixOf_iff_prefix, prefix_squeezeSlashes_iff hs]

/-! ### Specifiers -/

theorem isPackageSpecifier_squeezeSlashes (t : Text) :
    isPackageSpecifier (squeezeSlashes t) = isPackageSpecifier t := by
  have hDot : startsWith (squeezeSlashes t) "." = startsWith t "." := by
    have hHead (u : Text) : startsWith u "." = true ↔ u.head? = some (CodePoint.ofChar '.') :=
      List.isPrefixOf_iff_prefix.trans singleton_prefix_iff
    rw [Bool.eq_iff_iff, hHead, hHead, head?_squeezeSlashes]
  have hAlias : startsWith (squeezeSlashes t) "@/" = startsWith t "@/" :=
    @startsWith_squeezeSlashes ("@" : Text) (by decide) t
  have hHome : startsWith (squeezeSlashes t) "~/" = startsWith t "~/" :=
    @startsWith_squeezeSlashes ("~" : Text) (by decide) t
  simp only [isPackageSpecifier, List.any_cons, hDot, hAlias, hHome, List.any_nil]

theorem exists_eq_append_of_startsWith (h : startsWith t s = true) : ∃ r, t = s ++ r := by
  obtain ⟨r, rfl⟩ := List.isPrefixOf_iff_prefix.mp h
  exact ⟨r, rfl⟩

theorem squeezeSlashes_expandAlias (h : squeezeSlashes target = squeezeSlashes target') :
    squeezeSlashes (expandAlias target) = squeezeSlashes (expandAlias target') := by
  have hStarts : startsWith target "@/" = startsWith target' "@/" := by
    have hSqueezed (t : Text) : startsWith (squeezeSlashes t) "@/" = startsWith t "@/" :=
      @startsWith_squeezeSlashes ("@" : Text) (by decide) t
    rw [← hSqueezed target, h, hSqueezed]
  cases hAlias : startsWith target "@/" with
  | false =>
    rw [expandAlias, expandAlias, ← hStarts, hAlias]
    exact h
  | true =>
    obtain ⟨rest, rfl⟩ := exists_eq_append_of_startsWith hAlias
    obtain ⟨rest', rfl⟩ := exists_eq_append_of_startsWith (hStarts ▸ hAlias)
    have hSign : slash ∉ ("@" : Text) := by decide
    have hSource : slash ∉ ("src" : Text) := by decide
    have hRest : squeezeSlashes (slash :: rest) = squeezeSlashes (slash :: rest') :=
      List.append_cancel_left ((squeezeSlashes_append_of_notMem hSign _).symm.trans
        (h.trans (squeezeSlashes_append_of_notMem hSign _)))
    have hOut (r : Text) : squeezeSlashes (expandAlias (("@/" : Text) ++ r)) =
        ("src" : Text) ++ squeezeSlashes (slash :: r) :=
      squeezeSlashes_append_of_notMem hSource _
    rw [hOut, hOut, hRest]

def Text.behindSteps (t : Text) : Text := ofSegments (t.segments.drop t.climbs)

theorem behindSteps_of_climbs_eq_zero (h : t.climbs = 0) : t.behindSteps = t := by
  rw [behindSteps, h, List.drop_zero, ofSegments_segments]

theorem behindSteps_step (t : Text) : behindSteps (("../" : Text) ++ t) = t.behindSteps := by
  rw [behindSteps, segments_step, climbs_step, List.drop_succ_cons, behindSteps]

theorem squeezeSlashes_step (t : Text) :
    squeezeSlashes (("../" : Text) ++ t) = (".." : Text) ++ squeezeSlashes (slash :: t) := by
  have hDots : slash ∉ (".." : Text) := by decide
  exact squeezeSlashes_append_of_notMem hDots (slash :: t)

theorem squeezeSlashes_slash_step (t : Text) :
    squeezeSlashes (slash :: (("../" : Text) ++ t)) =
      ("/.." : Text) ++ squeezeSlashes (slash :: t) := by
  have hHead : (("../" : Text) ++ t).head? = some (CodePoint.ofChar '.') := rfl
  rw [squeezeSlashes_slash_cons, hHead, if_neg (by decide), squeezeSlashes_step]
  rfl

theorem squeezeSlashes_slash_step_ne_dots (t : Text) :
    squeezeSlashes (slash :: (("../" : Text) ++ t)) ≠ squeezeSlashes (slash :: (".." : Text)) := by
  have hDots : squeezeSlashes (slash :: (".." : Text)) = ("/.." : Text) ++ [] := by decide
  rw [squeezeSlashes_slash_step, hDots]
  intro h
  have hHead := head?_squeezeSlashes (slash :: t)
  rw [List.append_cancel_left h] at hHead
  cases hHead

/-- Texts that differ in the lengths of their runs of slashes, and climb alike, do not differ in
more behind their steps. -/
theorem squeezeSlashes_slash_behindSteps (hClimbs : rest.climbs = rest'.climbs)
    (h : squeezeSlashes (slash :: rest) = squeezeSlashes (slash :: rest')) :
    squeezeSlashes (slash :: rest.behindSteps) = squeezeSlashes (slash :: rest'.behindSteps) := by
  induction hn : rest.climbs generalizing rest rest' with
  | zero =>
    rw [behindSteps_of_climbs_eq_zero hn, behindSteps_of_climbs_eq_zero (hClimbs.symm.trans hn), h]
  | succ n ih =>
    have hPos : 0 < rest.climbs := by omega
    have hPos' : 0 < rest'.climbs := by omega
    rcases eq_or_step_of_climbs_pos hPos with rfl | ⟨r, rfl⟩
    · rcases eq_or_step_of_climbs_pos hPos' with rfl | ⟨r', rfl⟩
      · rfl
      · exact absurd h.symm (squeezeSlashes_slash_step_ne_dots r')
    · rcases eq_or_step_of_climbs_pos hPos' with rfl | ⟨r', rfl⟩
      · exact absurd h (squeezeSlashes_slash_step_ne_dots r)
      · rw [climbs_step] at hn
        rw [climbs_step, climbs_step] at hClimbs
        rw [squeezeSlashes_slash_step, squeezeSlashes_slash_step] at h
        rw [behindSteps_step, behindSteps_step]
        exact ih (Nat.succ.inj hClimbs) (List.append_cancel_left h) (Nat.succ.inj hn)

theorem squeezeSlashes_joinRelative (directory : Text) (hClimbs : target.climbs = target'.climbs)
    (h : squeezeSlashes target = squeezeSlashes target') :
    squeezeSlashes (joinRelative directory target) =
      squeezeSlashes (joinRelative directory target') := by
  have hHere : startsWith target "./" = startsWith target' "./" := by
    have hSqueezed (t : Text) : startsWith (squeezeSlashes t) "./" = startsWith t "./" :=
      @startsWith_squeezeSlashes ("." : Text) (by decide) t
    rw [← hSqueezed target, h, hSqueezed]
  have hStep : startsWith target "../" = startsWith target' "../" := by
    have hSqueezed (t : Text) : startsWith (squeezeSlashes t) "../" = startsWith t "../" :=
      @startsWith_squeezeSlashes (".." : Text) (by decide) t
    rw [← hSqueezed target, h, hSqueezed]
  by_cases hIsHere : startsWith target "./" = true
  · obtain ⟨rest, rfl⟩ := exists_eq_append_of_startsWith hIsHere
    obtain ⟨rest', rfl⟩ := exists_eq_append_of_startsWith (hHere ▸ hIsHere)
    have hDot : slash ∉ ("." : Text) := by decide
    have hRest : squeezeSlashes (slash :: rest) = squeezeSlashes (slash :: rest') :=
      List.append_cancel_left ((squeezeSlashes_append_of_notMem hDot _).symm.trans
        (h.trans (squeezeSlashes_append_of_notMem hDot _)))
    rw [joinRelative_here, joinRelative_here]
    exact squeezeSlashes_append_congr directory hRest
  by_cases hIsStep : startsWith target "../" = true
  · obtain ⟨rest, rfl⟩ := exists_eq_append_of_startsWith hIsStep
    obtain ⟨rest', rfl⟩ := exists_eq_append_of_startsWith (hStep ▸ hIsStep)
    rw [climbs_step, climbs_step] at hClimbs
    rw [squeezeSlashes_step, squeezeSlashes_step] at h
    have hClimbs := Nat.succ.inj hClimbs
    have hBehind := squeezeSlashes_slash_behindSteps hClimbs (List.append_cancel_left h)
    rw [joinRelative_step, joinRelative_step, ← hClimbs]
    split
    · rfl
    · rw [behindSteps, behindSteps, ← hClimbs] at hBehind
      exact squeezeSlashes_append_congr _ hBehind
  · rw [joinRelative, joinRelative, ← hHere, ← hStep, if_neg hIsHere, if_neg hIsHere,
      if_neg hIsStep, if_neg hIsStep]
    exact h

/-- The path that is cleaned: the specifier seen from the directory of the file. -/
def joinedPath (source target : Text) : Text :=
  joinRelative source.beforeLastSlash (expandAlias target)

theorem probedPath_eq_cleanPath (source target : Text) :
    probedPath source target = cleanPath (joinedPath source target) := rfl

theorem climbs_expandAlias (target : Text) : (expandAlias target).climbs = target.climbs := by
  rw [expandAlias]
  split
  · rename_i hAlias
    obtain ⟨rest, rfl⟩ := exists_eq_append_of_startsWith hAlias
    have hNone (t : Text) (hDot : t.head? ≠ some (CodePoint.ofChar '.')) : t.climbs = 0 := by
      by_contra hPos
      rcases eq_or_step_of_climbs_pos (Nat.pos_of_ne_zero hPos) with rfl | ⟨r, rfl⟩
      · exact hDot rfl
      · exact hDot rfl
    have hSource : (("src/" : Text) ++ rest).head? = some (CodePoint.ofChar 's') := rfl
    have hSign : (("@/" : Text) ++ rest).head? = some (CodePoint.ofChar '@') := rfl
    have hDrop : (("@/" : Text) ++ rest).drop 2 = rest := rfl
    rw [hDrop, hNone _ (by rw [hSource]; decide), hNone _ (by rw [hSign]; decide)]
  · rfl

/-- Specifiers that differ in the lengths of their runs of slashes, and climb alike, stand for the
same path, if cleaning is enough for both. -/
theorem probedPath_eq_of_squeezeSlashes_eq (h : squeezeSlashes target = squeezeSlashes target')
    (hClimbs : target.climbs = target'.climbs)
    (hRuns : ¬ ("///" : Text) <:+: joinedPath source target)
    (hRuns' : ¬ ("///" : Text) <:+: joinedPath source target') :
    probedPath source target = probedPath source target' := by
  have hJoined : squeezeSlashes (joinedPath source target) =
      squeezeSlashes (joinedPath source target') := by
    refine squeezeSlashes_joinRelative _ ?_ (squeezeSlashes_expandAlias h)
    rw [climbs_expandAlias, climbs_expandAlias, hClimbs]
  rw [probedPath_eq_cleanPath, probedPath_eq_cleanPath, cleanPath, cleanPath,
    halveSlashes_eq_squeezeSlashes hRuns, halveSlashes_eq_squeezeSlashes hRuns', hJoined]

theorem resolve_eq_of_probedPath_eq {files : Snapshot} (hPackage : ¬ isPackageSpecifier target)
    (hPackage' : ¬ isPackageSpecifier target')
    (h : probedPath source target = probedPath source target') :
    resolve source target files = resolve source target' files := by
  rw [resolve_of_not_package hPackage, resolve_of_not_package hPackage', probes, probes, h]

/-! ### Where three slashes come from -/

/-- Three slashes that do not begin before the end of a text begin behind it. -/
theorem tripleSlash_infix_of_append (hs : ¬ ("//" : Text) <:+: s ++ [slash])
    (h : ("///" : Text) <:+: s ++ slash :: rest) : ("///" : Text) <:+: slash :: rest := by
  induction s with
  | nil => exact h
  | cons c s ih =>
    rw [List.cons_append, List.infix_cons_iff] at h hs
    rcases h with hHere | hLater
    · obtain ⟨rfl, hRun⟩ := tripleSlash_prefix_cons_iff.mp hHere
      have hHead : (s ++ [slash]).head? = some slash := by
        cases s with
        | nil => rfl
        | cons d s => exact congrArg some (doubleSlash_prefix_cons_iff.mp hRun).1
      exact absurd (Or.inl (doubleSlash_prefix_cons_iff.mpr ⟨rfl, hHead⟩)) hs
    · exact ih (fun hInfix => hs (Or.inr hInfix)) hLater

theorem not_doubleSlash_infix_directories (hSource : ¬ ("//" : Text) <:+: source) (n : Nat) :
    ¬ ("//" : Text) <:+: ofSegments (source.directories.take n) ++ [slash] := by
  by_cases hNone : source.directories.take n = []
  · rw [hNone]
    decide
  · have hPos := List.length_pos_iff.mpr source.segments_ne_nil
    have hTake : source.directories.take n =
        source.segments.take (min n (source.segments.length - 1)) := by
      rw [directories, List.dropLast_eq_take, List.take_take]
    have hCut := under_take_drop (t := source) (n := min n (source.segments.length - 1)) (by omega)
    rw [← hTake, under_of_ne_nil hNone] at hCut
    intro hInfix
    apply hSource
    rw [← hCut, List.append_cons]
    exact hInfix.trans (List.prefix_append _ _).isInfix

theorem not_doubleSlash_infix_beforeLastSlash (hSource : ¬ ("//" : Text) <:+: source) :
    ¬ ("//" : Text) <:+: source.beforeLastSlash ++ [slash] := by
  rw [beforeLastSlash_eq, ← List.take_length (l := source.directories)]
  exact not_doubleSlash_infix_directories hSource _

theorem not_doubleSlash_infix_take (hSource : ¬ ("//" : Text) <:+: source) (n : Nat) :
    ¬ ("//" : Text) <:+: ofSegments (source.beforeLastSlash.segments.take n) ++ [slash] := by
  by_cases hTop : source.directories = []
  · have hNone : ofSegments (source.beforeLastSlash.segments.take n) = [] := by
      rw [beforeLastSlash_eq, hTop]
      cases n with
      | zero => rfl
      | succ n => cases n <;> rfl
    rw [hNone]
    decide
  · rw [segments_beforeLastSlash hTop]
    exact not_doubleSlash_infix_directories hSource n

theorem tripleSlash_infix_of_behindSteps (h : ("///" : Text) <:+: slash :: rest.behindSteps) :
    ("///" : Text) <:+: slash :: rest := by
  induction hn : rest.climbs generalizing rest with
  | zero => rwa [behindSteps_of_climbs_eq_zero hn] at h
  | succ n ih =>
    have hPos : 0 < rest.climbs := by omega
    rcases eq_or_step_of_climbs_pos hPos with rfl | ⟨r, rfl⟩
    · exact absurd h (by decide)
    · rw [climbs_step] at hn
      rw [behindSteps_step] at h
      exact (ih h (Nat.succ.inj hn)).trans (List.suffix_append ("/.." : Text) _).isInfix

/-- A path that is put together has three slashes in a row only where the specifier has, if the path
of the file has no two. -/
theorem tripleSlash_infix_of_joinedPath (hSource : ¬ ("//" : Text) <:+: source)
    (h : ("///" : Text) <:+: joinedPath source target) : ("///" : Text) <:+: target := by
  rw [joinedPath, expandAlias] at h
  split at h
  · rename_i hAlias
    obtain ⟨rest, rfl⟩ := exists_eq_append_of_startsWith hAlias
    have hNames : ¬ ("//" : Text) <:+: ("src" : Text) ++ [slash] := by decide
    have hBehind : ("///" : Text) <:+: slash :: rest := tripleSlash_infix_of_append hNames h
    exact hBehind.trans (List.suffix_append ("@" : Text) _).isInfix
  · by_cases hHere : startsWith target "./" = true
    · obtain ⟨rest, rfl⟩ := exists_eq_append_of_startsWith hHere
      rw [joinRelative_here] at h
      have hBehind := tripleSlash_infix_of_append
        (not_doubleSlash_infix_beforeLastSlash hSource) h
      exact hBehind.trans (List.suffix_append ("." : Text) _).isInfix
    by_cases hStep : startsWith target "../" = true
    · obtain ⟨rest, rfl⟩ := exists_eq_append_of_startsWith hStep
      rw [joinRelative_step] at h
      split at h
      · exact absurd h (by decide)
      · have hBehind := tripleSlash_infix_of_append (not_doubleSlash_infix_take hSource _) h
        exact (tripleSlash_infix_of_behindSteps hBehind).trans
          (List.suffix_append (".." : Text) _).isInfix
    · rwa [joinRelative, if_neg hHere, if_neg hStep] at h

/-! ### Cleaned paths -/

/-- Where the path that is put together has no three slashes in a row, the probed path is clean and
cleaning it once more changes nothing; the clean paths are those that cleaning does not change. Two
specifiers that differ in the lengths of their runs of slashes and climb alike resolve to the same,
if neither path that is put together has three slashes in a row. If the path of the importing file
has no two slashes in a row, only the specifier can bring in three. -/
theorem cleaning_suffices :
    (∀ source target : Text, ¬ ("///" : Text) <:+: joinedPath source target →
      (probedPath source target).IsClean ∧
        cleanPath (probedPath source target) = probedPath source target) ∧
    (∀ t : Text, t.IsClean ↔ cleanPath t = t) ∧
    (∀ source target target' : Text, ¬ isPackageSpecifier target →
      squeezeSlashes target = squeezeSlashes target' → target.climbs = target'.climbs →
      ¬ ("///" : Text) <:+: joinedPath source target →
      ¬ ("///" : Text) <:+: joinedPath source target' →
      ∀ files, resolve source target files = resolve source target' files) ∧
    ∀ source target : Text, ¬ ("//" : Text) <:+: source →
      ("///" : Text) <:+: joinedPath source target → ("///" : Text) <:+: target := by
  refine ⟨?clean, fun t => isClean_iff_cleanPath_eq_self, ?squeezed,
    fun source target hSource h => tripleSlash_infix_of_joinedPath hSource h⟩
  case clean =>
    intro source target hRuns
    have hClean : (probedPath source target).IsClean := isClean_cleanPath_iff.mpr hRuns
    exact ⟨hClean, isClean_iff_cleanPath_eq_self.mp hClean⟩
  case squeezed =>
    intro source target target' hPackage hSqueezed hClimbs hRuns hRuns' files
    have hPackage' : ¬ isPackageSpecifier target' := by
      rwa [← isPackageSpecifier_squeezeSlashes, ← hSqueezed, isPackageSpecifier_squeezeSlashes]
    exact resolve_eq_of_probedPath_eq hPackage hPackage'
      (probedPath_eq_of_squeezeSlashes_eq hSqueezed hClimbs hRuns hRuns')

theorem cleaning_suffices_doubled :
    ¬ ("///" : Text) <:+: joinedPath "src/app/a.ts" "../..//lib//x" ∧
    (probedPath "src/app/a.ts" "../..//lib//x").IsClean ∧
    ¬ isPackageSpecifier "../..//lib//x" ∧
    squeezeSlashes "../..//lib//x" = squeezeSlashes "../../lib/x" ∧
    Text.climbs "../..//lib//x" = Text.climbs "../../lib/x" ∧
    ¬ ("///" : Text) <:+: joinedPath "src/app/a.ts" "../../lib/x" ∧
    resolve "src/app/a.ts" "../..//lib//x" (.ofList [("lib/x.ts", [])]) =
      resolve "src/app/a.ts" "../../lib/x" (.ofList [("lib/x.ts", [])]) ∧
    ¬ ("//" : Text) <:+: "src/app/a.ts" ∧
    ("///" : Text) <:+: joinedPath "src/app/a.ts" "@///x" ∧ ("///" : Text) <:+: "@///x" := by
  obtain ⟨hClean, -, hSqueezed, hJoined⟩ := cleaning_suffices
  have hRuns : ¬ ("///" : Text) <:+: joinedPath "src/app/a.ts" "../..//lib//x" := by decide +kernel
  have hRuns' : ¬ ("///" : Text) <:+: joinedPath "src/app/a.ts" "../../lib/x" := by decide +kernel
  have hPackage : ¬ isPackageSpecifier "../..//lib//x" := by decide +kernel
  have hSame : squeezeSlashes "../..//lib//x" = squeezeSlashes "../../lib/x" := by decide +kernel
  have hClimbs : Text.climbs "../..//lib//x" = Text.climbs "../../lib/x" := by decide +kernel
  have hSource : ¬ ("//" : Text) <:+: "src/app/a.ts" := by decide +kernel
  have hThree : ("///" : Text) <:+: joinedPath "src/app/a.ts" "@///x" := by decide +kernel
  exact ⟨hRuns, (hClean _ _ hRuns).1, hPackage, hSame, hClimbs, hRuns',
    hSqueezed _ _ _ hPackage hSame hClimbs hRuns hRuns' _, hSource, hThree,
    hJoined _ _ hSource hThree⟩

/-- Three slashes in a row are not cleaned away, and the path that is left is cleaned further when
it is cleaned once more. Two slashes between steps make that the second step is no step. -/
theorem more_slashes_change_paths :
    ¬ isPackageSpecifier "./lib///x" ∧
    probedPath "src/a.ts" "./lib///x" = "src/lib//x" ∧ ("//" : Text) <:+: "src/lib//x" ∧
    cleanPath "src/lib//x" = "src/lib/x" ∧
    probedPath "a.ts" ".///x" = "/x" ∧ ("/" : Text) <+: "/x" ∧
    resolve "src/a.ts" "./lib/x" (.ofList [("src/lib/x.ts", [])]) = .confirmed "src/lib/x.ts" ∧
    resolve "src/a.ts" "./lib///x" (.ofList [("src/lib/x.ts", [])]) = .unconfirmed "src/lib//x" ∧
    resolve "src/app/a.ts" "../../x" (.ofList [("x.ts", [])]) = .confirmed "x.ts" ∧
    resolve "src/app/a.ts" "..//../x" (.ofList [("x.ts", [])]) = .unconfirmed "src/../x" := by
  decide +kernel

end DependencyMap
