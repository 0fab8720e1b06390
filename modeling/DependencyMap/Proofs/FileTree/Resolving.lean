import DependencyMap.Proofs.FileTree.Canonical
import DependencyMap.Proofs.FileTree.Loading
import Mathlib.Data.List.Induction

/-!
# Resolved paths

A place is straight if no link stands on the way to it. The canonical place of a path is straight
(`canonical_isStraight`), and a straight place is reached by its own path if it is reached at all
(`IsStraight.reach_eq_ok_iff`), so that it is never behind too many links. Hence a path that has a
canonical place is resolved to it (`resolve_eq_of_canonical`).
-/

namespace DependencyMap

namespace FileTree

variable {tree : FileTree} {base place dest : Place} {name : Text} {names : List Text}
  {links depth room : Nat} {path : Text}

/-! ### What stands on the way to something -/

theorem isDirectory_of_item?_append {way inner : Place} {item : Item} (hNe : inner ≠ [])
    (h : tree.item? (way ++ inner) = some item) : tree.isDirectory way = true := by
  induction inner using List.reverseRecOn generalizing item with
  | nil => exact absurd rfl hNe
  | append_singleton inner name ih =>
    have hDirectory := isDirectory_dropLast h
    rw [← List.append_assoc, List.dropLast_concat] at hDirectory
    by_cases hInner : inner = []
    · rwa [hInner, List.append_nil] at hDirectory
    · exact ih hInner (of_decide_eq_true hDirectory)

theorem item?_append_eq_none {way : Place} (inner : Place) (h : tree.item? way = none) :
    tree.item? (way ++ inner) = none := by
  by_cases hInner : inner = []
  · rwa [hInner, List.append_nil]
  cases hItem : tree.item? (way ++ inner) with
  | none => rfl
  | some item =>
    have hDirectory := isDirectory_of_item?_append hInner hItem
    simp [isDirectory, h] at hDirectory

/-! ### Straight places -/

/-- No link stands on the way to the place. -/
structure IsStraight (tree : FileTree) (place : Place) : Prop where
  named : ∀ name ∈ place, isName name = true
  unlinked : ∀ n target, tree.item? (place.take n) ≠ some (.link target)

namespace IsStraight

theorem nil : tree.IsStraight [] := ⟨List.forall_mem_nil _, by simp [item?]⟩

theorem dropLast (h : tree.IsStraight place) : tree.IsStraight place.dropLast := by
  refine ⟨fun name hName => h.named name (List.dropLast_subset place hName), fun n target => ?_⟩
  rw [List.dropLast_eq_take, List.take_take]
  exact h.unlinked _ target

theorem concat (h : tree.IsStraight place) (hName : isName name = true)
    (hItem : ∀ target, tree.item? (place ++ [name]) ≠ some (.link target)) :
    tree.IsStraight (place ++ [name]) := by
  refine ⟨fun n hn => ?_, fun n target => ?_⟩
  · rcases List.mem_append.mp hn with hn | hn
    · exact h.named n hn
    · exact List.mem_singleton.mp hn ▸ hName
  · by_cases hLe : n ≤ place.length
    · rw [List.take_append_of_le_length hLe]
      exact h.unlinked n target
    · rw [List.take_of_length_le (by simp; omega)]
      exact hItem target

/-- What is no link itself stands at a straight place. -/
theorem of_item? {item : Item} (h : tree.item? place = some item) (hLink : item.isLink = false) :
    tree.IsStraight place := by
  refine ⟨@isName_of_item?_eq_some tree [] place item h, fun n target hTarget => ?_⟩
  by_cases hLe : place.length ≤ n
  · rw [List.take_of_length_le hLe, h] at hTarget
    cases hTarget
    cases hLink
  · rw [← List.take_append_drop n place] at h
    have hDirectory := isDirectory_of_item?_append (by simp; omega) h
    simp [isDirectory, hTarget] at hDirectory

end IsStraight

/-! ### Canonical places are straight -/

def IsStraightState (tree : FileTree) (state : Followed × Place) : Prop :=
  (∀ link dest, state.1.lookup link = some (some dest) → tree.IsStraight dest) ∧
    tree.IsStraight state.2

theorem isStraight_pathStart (path : Text) (h : tree.IsStraight base) :
    tree.IsStraight (pathStart base path) := by
  rw [pathStart]
  split
  · exact .nil
  · exact h

theorem isName_of_proper (hStay : ¬ (name = "" ∨ name = ".")) (hUp : name ≠ "..")
    (hSlash : CodePoint.ofChar '/' ∉ name) : isName name = true := by
  have hNames : name ∉ ([[], ".", ".."] : List Text) := by
    simpa [Text.ofString, and_assoc] using And.intro (not_or.mp hStay) hUp
  simp [isName, hSlash, hNames]

theorem isStraightState_enter
    {follow : Followed × Place → Text → Except Unresolved (Followed × Place)}
    {state state' : Followed × Place}
    (hFollow : ∀ state path state', follow state path = .ok state' → tree.IsStraightState state →
      tree.IsStraightState state')
    (hSlash : CodePoint.ofChar '/' ∉ name) (h : tree.enter follow state name = .ok state')
    (hState : tree.IsStraightState state) : tree.IsStraightState state' := by
  obtain ⟨followed, base⟩ := state
  obtain ⟨hNoted, hBase⟩ := hState
  rcases exists_of_enter_eq_ok h with rfl | rfl | ⟨hStay, hUp, hItem, rfl⟩ | ⟨dest, hKnown, rfl⟩ |
    ⟨target, inner, hInner, rfl⟩
  · exact ⟨hNoted, hBase⟩
  · exact ⟨hNoted, hBase.dropLast⟩
  · exact ⟨hNoted, hBase.concat (isName_of_proper hStay hUp hSlash) hItem⟩
  · exact ⟨hNoted, hNoted _ _ hKnown⟩
  · have hPending := Followed.noted_pending (P := fun _ d => tree.IsStraight d) hNoted
      (base ++ [name])
    obtain ⟨hNoted', hDest⟩ := hFollow _ _ _ hInner ⟨hPending, hBase⟩
    exact ⟨Followed.noted_concluded (P := fun _ d => tree.IsStraight d) hNoted' hDest, hDest⟩

theorem isStraightState_enterAll
    {follow : Followed × Place → Text → Except Unresolved (Followed × Place)}
    {state state' : Followed × Place}
    (hFollow : ∀ state path state', follow state path = .ok state' → tree.IsStraightState state →
      tree.IsStraightState state')
    (hNames : ∀ name ∈ names, CodePoint.ofChar '/' ∉ name)
    (h : tree.enterAll follow state names = .ok state') (hState : tree.IsStraightState state) :
    tree.IsStraightState state' :=
  enterAll_keeps (R := fun a b => tree.IsStraightState a → tree.IsStraightState b)
    (fun _ => id) (fun _ _ _ hFirst hSecond => hSecond ∘ hFirst)
    (fun name hName _ _ => isStraightState_enter hFollow (hNames name hName)) h hState

theorem isStraightState_canonicalFrom {state state' : Followed × Place}
    (h : tree.canonicalFrom depth state path = .ok state') (hState : tree.IsStraightState state) :
    tree.IsStraightState state' := by
  induction depth generalizing state path state' with
  | zero => cases h
  | succ depth ih =>
    obtain ⟨followed, base⟩ := state
    rw [canonicalFrom_succ] at h
    exact isStraightState_enterAll (fun _ _ _ => ih)
      (fun _ => Text.slash_notMem_of_mem_segments) h
      ⟨hState.1, isStraight_pathStart path hState.2⟩

/-- No link stands on the way to a canonical place. -/
theorem canonical_isStraight (hBase : tree.IsStraight base)
    (h : tree.canonical room base path = .ok dest) : tree.IsStraight dest := by
  rw [canonical] at h
  cases hWay : tree.enterAll (tree.canonicalFrom room) ([], pathStart base path)
    (pathNames path) with
  | error fault =>
    rw [hWay] at h
    cases h
  | ok state =>
    rw [hWay] at h
    cases h
    exact (isStraightState_enterAll (fun _ _ _ => isStraightState_canonicalFrom)
      (fun _ hName => Text.slash_notMem_of_mem_segments (List.mem_of_mem_filter hName)) hWay
      ⟨by simp, isStraight_pathStart path hBase⟩).2

/-! ### Straight places are reached -/

/-- Where no link stands under the names, they lead to what stands under the last one, or to
nothing. -/
theorem foldlM_step_of_unlinked
    {follow : Place × Nat → Text → Except PathFault (Place × Nat)}
    (hNames : ∀ name ∈ names, isName name = true)
    (hUnlinked : ∀ n target, tree.item? (base ++ names.take n) ≠ some (.link target))
    (hBase : ∃ item, tree.item? base = some item) :
    ((∃ item, tree.item? (base ++ names) = some item) ∧
        names.foldlM (tree.step follow) (base, links) = .ok (base ++ names, links)) ∨
      (tree.item? (base ++ names) = none ∧ ∃ fault, fault ≠ .tooManyLinks ∧
        names.foldlM (tree.step follow) (base, links) = .error fault) := by
  induction names generalizing base with
  | nil =>
    rw [List.append_nil]
    exact Or.inl ⟨hBase, rfl⟩
  | cons name names ih =>
    obtain ⟨hName, hNames⟩ := List.forall_mem_cons.mp hNames
    rw [List.foldlM_cons]
    cases hDirectory : tree.isDirectory base with
    | false =>
      refine Or.inr ⟨?_, .notDirectory, by decide, ?_⟩
      · cases hItem : tree.item? (base ++ name :: names) with
        | none => rfl
        | some item =>
          rw [isDirectory_of_item?_append (List.cons_ne_nil _ _) hItem] at hDirectory
          cases hDirectory
      · simp [step, hDirectory, bind, Except.bind]
    | true =>
      have hStep : tree.step follow (base, links) name =
          tree.arrive follow links (base ++ [name]) := by
        have hStay : ¬ (name = "" ∨ name = ".") := by
          rintro (rfl | rfl) <;> exact absurd hName (by decide)
        have hUp : name ≠ ".." := by
          rintro rfl
          exact absurd hName (by decide)
        simp only [step, hDirectory, Bool.not_true, Bool.false_eq_true, if_false, if_neg hStay,
          if_neg hUp]
      have hFirst := hUnlinked 1
      rw [List.take_succ_cons, List.take_zero] at hFirst
      rw [hStep, arrive, List.append_cons]
      cases hItem : tree.item? (base ++ [name]) with
      | none =>
        refine Or.inr ⟨item?_append_eq_none names hItem, _, ?_, rfl⟩
        split <;> decide
      | some item =>
        have hOn := @ih (base ++ [name]) hNames (fun n target => by
          rw [← List.append_cons]
          exact hUnlinked (n + 1) target) ⟨item, hItem⟩
        cases item with
        | link target => exact absurd hItem (hFirst target)
        | _ => exact hOn

theorem exists_reachFrom_eq (tree : FileTree) (depth : Nat) : ∃ follow, ∀ state path,
    tree.reachFrom depth state path =
      path.segments.foldlM (tree.step follow) (pathStart state.1 path, state.2) := by
  cases depth with
  | zero => exact ⟨_, fun _ _ => rfl⟩
  | succ depth => exact ⟨_, fun _ _ => rfl⟩

namespace IsStraight

theorem reachFrom_toPath (h : tree.IsStraight place) (depth : Nat) :
    ((∃ item, tree.item? place = some item) ∧
        tree.reachFrom depth ([], 0) place.toPath = .ok (place, 0)) ∨
      (tree.item? place = none ∧ ∃ fault, fault ≠ .tooManyLinks ∧
        tree.reachFrom depth ([], 0) place.toPath = .error fault) := by
  obtain ⟨follow, hFollow⟩ := exists_reachFrom_eq tree depth
  have hStart : pathStart [] place.toPath = [] := by
    rw [pathStart, ite_self]
  have hFirst : tree.step follow ([], 0) [] = .ok ([], 0) := by
    simp [step, isDirectory_nil, Text.ofString]
  have hSegments : place.toPath.segments = [] :: (Text.ofSegments place).segments :=
    Text.segments_slash_cons _
  have hWalk := @foldlM_step_of_unlinked tree [] place 0 follow h.named h.unlinked
    ⟨.directory, rfl⟩
  rw [hFollow, hStart, hSegments, List.foldlM_cons, hFirst]
  by_cases hTop : place = []
  · subst hTop
    refine Or.inl ⟨⟨.directory, rfl⟩, ?_⟩
    have hNone : (Text.ofSegments []).segments = [[]] := rfl
    rw [hNone]
    simp only [bind, Except.bind, List.foldlM_cons, List.foldlM_nil, hFirst, pure, Except.pure]
  · rw [segments_ofSegments hTop h.named]
    exact hWalk

/-- A straight place is not behind too many links. -/
theorem reach_ne_tooManyLinks (h : tree.IsStraight place) :
    tree.reach [] place.toPath ≠ .error .tooManyLinks := by
  rw [reach]
  split
  · simp
  split
  · simp
  · rcases h.reachFrom_toPath maxLinks with ⟨-, hReach⟩ | ⟨-, fault, hFault, hReach⟩
    · simp [hReach, Except.map]
    · rw [hReach]
      simpa [Except.map] using hFault

/-- A straight place is reached if something stands there and its path is not too long. -/
theorem reach_eq_ok_iff (h : tree.IsStraight place) : tree.reach [] place.toPath = .ok dest ↔
    dest = place ∧ (∃ item, tree.item? place = some item) ∧
      place.toPath.pathLength ≤ maxPathLength := by
  have hNe : place.toPath.isEmpty = false := rfl
  rw [reach, hNe]
  by_cases hLength : maxPathLength < place.toPath.pathLength
  · simp [hLength, Nat.not_le.mpr hLength]
  · rcases h.reachFrom_toPath maxLinks with ⟨⟨item, hItem⟩, hReach⟩ |
      ⟨hNone, fault, -, hReach⟩
    · simp [hLength, Nat.not_lt.mp hLength, hReach, hItem, Except.map]
      exact eq_comm
    · simp [hLength, hReach, hNone, Except.map]

theorem checked_eq (h : tree.IsStraight place) : tree.checked place = .ok place := by
  have hNot := h.reach_ne_tooManyLinks
  rw [checked]
  cases hReach : tree.reach [] place.toPath with
  | ok dest => rfl
  | error fault =>
    rw [hReach] at hNot
    cases fault with
    | tooManyLinks => exact absurd rfl hNot
    | _ => rfl

end IsStraight

/-! ### What is resolved -/

/-- A path that has a canonical place is resolved to it. -/
theorem resolve_eq_of_canonical (hBase : tree.IsStraight base)
    (h : tree.canonical room base path = .ok dest) : tree.resolve room base path = .ok dest := by
  rw [resolve, h]
  exact (canonical_isStraight hBase h).checked_eq

/-- A path that leads to a directory is resolved to that, if there is room for as many links as may
be followed. -/
theorem resolve_eq_of_reach (hRoom : maxLinks ≤ room) (h : tree.reach base path = .ok dest)
    (hDirectory : tree.isDirectory dest = true) : tree.resolve room base path = .ok dest := by
  rw [resolve, canonical_eq_of_reach hRoom h]
  exact (IsStraight.of_item? (of_decide_eq_true hDirectory) rfl).checked_eq

end FileTree

end DependencyMap
