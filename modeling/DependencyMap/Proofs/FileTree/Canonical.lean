import DependencyMap.Proofs.FileTree.Walking

/-!
# Canonical places

The canonical place of a path is found name by name as well, but without asking whether anything is
there, and with notes of the links that were met. As a link that was met is not followed again, no
more links lead through one another than there are (`canonical_ne_tooDeep`).

Where a path leads to something, its canonical place is the place of that (`canonical_eq_of_reach`),
which is to say that the notes do no harm: what is noted of a link is what it stands for
(`Followed.IsTrue`), and no link is met again while it is being followed, because the way from it is
longer than what is left of the way (`Followed.Outlasts`).
-/

namespace DependencyMap

namespace Followed

/-- Where a link is noted to lead, it leads. -/
def IsTrue (followed : Followed) (tree : FileTree) : Prop :=
  ∀ place dest, followed.lookup place = some (some dest) → tree.StandsFor place dest

/-- The way from a link that is being followed goes through `cost` links at least. -/
def Outlasts (followed : Followed) (tree : FileTree) (cost : Nat) : Prop :=
  ∀ place, followed.lookup place = some none → ∀ target,
    tree.item? place = some (.link target) → ∀ dest links links',
      tree.Leads (pathStart place.dropLast target) links target.segments dest links' →
        links + cost ≤ links'

def newLinks (followed : Followed) (tree : FileTree) : Nat :=
  tree.items.countP fun e => e.2.isLink && (followed.lookup e.1).isNone

/-- Notes that were made later: the links that were met are still known, and no further link is
being followed. -/
structure Continues (followed followed' : Followed) : Prop where
  known : ∀ place, followed'.lookup place = none → followed.lookup place = none
  pending : ∀ place, followed'.lookup place = some none → followed.lookup place = some none

variable {tree : FileTree} {followed followed' followed'' : Followed} {place : Place}
  {noted : Option Place} {cost cost' : Nat}

theorem lookup_cons (followed : Followed) (place p : Place) (noted : Option Place) :
    List.lookup p ((place, noted) :: followed) =
      if p = place then some noted else followed.lookup p := by
  rw [List.lookup_cons]
  by_cases h : p = place
  · simp [h]
  · simp [h, beq_eq_false_iff_ne.mpr h]

theorem Continues.refl (followed : Followed) : followed.Continues followed :=
  ⟨fun _ => id, fun _ => id⟩

theorem Continues.trans (h : followed.Continues followed') (h' : followed'.Continues followed'') :
    followed.Continues followed'' :=
  ⟨fun p hp => h.known p (h'.known p hp), fun p hp => h.pending p (h'.pending p hp)⟩

/-- A link is noted before it is followed, and after that with where it leads. -/
theorem Continues.concluded {dest : Place} (h : Continues ((place, none) :: followed) followed') :
    followed.Continues ((place, some dest) :: followed') := by
  constructor
  · intro p hp
    rw [lookup_cons] at hp
    split at hp
    · cases hp
    · rename_i hne
      have hKnown := h.known p hp
      rwa [lookup_cons, if_neg hne] at hKnown
  · intro p hp
    rw [lookup_cons] at hp
    split at hp
    · cases hp
    · rename_i hne
      have hPending := h.pending p hp
      rwa [lookup_cons, if_neg hne] at hPending

/-- A link that is being followed is not noted to lead anywhere. -/
theorem noted_pending {P : Place → Place → Prop}
    (h : ∀ p d, followed.lookup p = some (some d) → P p d) (place p d : Place)
    (hp : List.lookup p ((place, none) :: followed) = some (some d)) : P p d := by
  rw [lookup_cons] at hp
  split at hp
  · cases hp
  · exact h p d hp

theorem noted_concluded {P : Place → Place → Prop} {dest : Place}
    (h : ∀ p d, followed.lookup p = some (some d) → P p d) (hDest : P place dest) (p d : Place)
    (hp : List.lookup p ((place, some dest) :: followed) = some (some d)) : P p d := by
  rw [lookup_cons] at hp
  split at hp
  · rename_i hSame
    cases hp
    exact hSame ▸ hDest
  · exact h p d hp

theorem IsTrue.pending (h : followed.IsTrue tree) (place : Place) :
    IsTrue ((place, none) :: followed) tree := noted_pending h place

theorem IsTrue.concluded {dest : Place} (h : followed.IsTrue tree)
    (hStands : tree.StandsFor place dest) : IsTrue ((place, some dest) :: followed) tree :=
  noted_concluded h hStands

theorem Outlasts.mono (h : followed.Outlasts tree cost) (hCost : cost' ≤ cost)
    (hOn : followed.Continues followed') : followed'.Outlasts tree cost' := by
  intro p hp target hItem dest links links' hWalk
  have hLong := h p (hOn.pending p hp) target hItem dest links links' hWalk
  omega

/-- The way from a link that is about to be followed is as long as it is. -/
theorem Outlasts.pending {base middle : Place} {name target : Text} {links links' : Nat}
    (h : followed.Outlasts tree cost)
    (hItem : tree.item? (base ++ [name]) = some (.link target))
    (hWalk : tree.Leads (pathStart base target) links target.segments middle links')
    (hCost : links' ≤ links + cost) :
    Outlasts ((base ++ [name], none) :: followed) tree (links' - links) := by
  intro p hp target' hItem' dest a b hWalk'
  rw [lookup_cons] at hp
  split at hp
  · rename_i hSame
    subst hSame
    rw [List.dropLast_concat] at hWalk'
    rw [hItem] at hItem'
    cases hItem'
    have hLe := hWalk.links_le
    have hAgree := (hWalk.agree hWalk').2
    omega
  · have hLong := h p hp target' hItem' dest a b hWalk'
    omega

theorem newLinks_nil : newLinks [] tree = tree.items.countP fun e => e.2.isLink := by
  simp [newLinks]

theorem newLinks_le (h : followed.Continues followed') :
    followed'.newLinks tree ≤ followed.newLinks tree := by
  refine List.countP_mono_left fun e _ he => ?_
  simp only [Bool.and_eq_true, Option.isNone_iff_eq_none] at he ⊢
  exact ⟨he.1, h.known _ he.2⟩

/-- With a link that is met, one less is new. -/
theorem newLinks_lt {target : Text} (hItem : tree.item? place = some (.link target))
    (hNew : followed.lookup place = none) :
    newLinks ((place, noted) :: followed) tree < followed.newLinks tree := by
  have hTop : place ≠ [] := by
    rintro rfl
    simp [FileTree.item?] at hItem
  have hMem := (FileTree.item?_eq_some_iff hTop).mp hItem
  simp only [newLinks, List.countP_eq_length_filter]
  have hSub : (tree.items.filter fun e => e.2.isLink &&
        (List.lookup e.1 ((place, noted) :: followed)).isNone).Sublist
      (tree.items.filter fun e => e.2.isLink && (followed.lookup e.1).isNone) := by
    refine List.monotone_filter_right _ fun e he => ?_
    simp only [lookup_cons, Bool.and_eq_true, Option.isNone_iff_eq_none] at he ⊢
    split at he
    · cases he.2
    · exact he
  -- the link itself is new without the note and not with it
  refine Nat.lt_of_not_le fun hLe => ?_
  have hSame := hSub.eq_of_length_le hLe
  have hBefore : (place, Item.link target) ∈
      tree.items.filter fun e => e.2.isLink && (followed.lookup e.1).isNone :=
    List.mem_filter.mpr ⟨hMem, by simp [Item.isLink, hNew]⟩
  rw [← hSame] at hBefore
  have hAfter := (List.mem_filter.mp hBefore).2
  simp at hAfter

end Followed

namespace FileTree

variable {tree : FileTree} {base dest : Place} {links links' depth : Nat} {names : List Text}
  {followed : Followed}

/-! ### Steps and walks -/

section Steps

open Followed

variable {follow : Followed × Place → Text → Except Unresolved (Followed × Place)}
  {state state' : Followed × Place} {name : Text}

inductive Enters (tree : FileTree)
    (follow : Followed × Place → Text → Except Unresolved (Followed × Place))
    (followed : Followed) (base : Place) (name : Text) :
    Except Unresolved (Followed × Place) → Prop
  | stay : name = "" ∨ name = "." → Enters tree follow followed base name (.ok (followed, base))
  | up : name = ".." → Enters tree follow followed base name (.ok (followed, base.dropLast))
  | item : ¬ (name = "" ∨ name = ".") → name ≠ ".." →
      (∀ target, tree.item? (base ++ [name]) ≠ some (.link target)) →
      Enters tree follow followed base name (.ok (followed, base ++ [name]))
  | known {target : Text} {dest : Place} : tree.item? (base ++ [name]) = some (.link target) →
      followed.lookup (base ++ [name]) = some (some dest) →
      Enters tree follow followed base name (.ok (followed, dest))
  | circle {target : Text} : tree.item? (base ++ [name]) = some (.link target) →
      followed.lookup (base ++ [name]) = some none →
      Enters tree follow followed base name (.error (.circle (base ++ [name]).toPath))
  | link {target : Text} : tree.item? (base ++ [name]) = some (.link target) →
      followed.lookup (base ++ [name]) = none →
      Enters tree follow followed base name
        ((follow ((base ++ [name], none) :: followed, base) target).map fun (followed, dest) =>
          ((base ++ [name], some dest) :: followed, dest))

theorem enters (tree : FileTree)
    (follow : Followed × Place → Text → Except Unresolved (Followed × Place))
    (followed : Followed) (base : Place) (name : Text) :
    tree.Enters follow followed base name (tree.enter follow (followed, base) name) := by
  by_cases hStay : name = "" ∨ name = "."
  · rw [enter, if_pos hStay]
    exact .stay hStay
  by_cases hUp : name = ".."
  · rw [enter, if_neg hStay, if_pos hUp]
    exact .up hUp
  simp only [enter, if_neg hStay, if_neg hUp]
  cases hItem : tree.item? (base ++ [name]) with
  | none => exact .item hStay hUp (by simp [hItem])
  | some item =>
    cases item with
    | file bytes => exact .item hStay hUp (by simp [hItem])
    | directory => exact .item hStay hUp (by simp [hItem])
    | link target =>
      cases hNoted : followed.lookup (base ++ [name]) with
      | none => exact .link hItem hNoted
      | some noted =>
        cases noted with
        | none => exact .circle hItem hNoted
        | some dest => exact .known hItem hNoted

/-- A step that succeeds leaves the notes as they are, or follows a link and notes where it leads. -/
theorem exists_of_enter_eq_ok {base : Place}
    (h : tree.enter follow (followed, base) name = .ok state') :
    state' = (followed, base) ∨ state' = (followed, base.dropLast) ∨
      (¬ (name = "" ∨ name = ".") ∧ name ≠ ".." ∧
        (∀ target, tree.item? (base ++ [name]) ≠ some (.link target)) ∧
        state' = (followed, base ++ [name])) ∨
      (∃ dest, followed.lookup (base ++ [name]) = some (some dest) ∧ state' = (followed, dest)) ∨
      ∃ target inner, follow ((base ++ [name], none) :: followed, base) target = .ok inner ∧
        state' = ((base ++ [name], some inner.2) :: inner.1, inner.2) := by
  have hEnters := tree.enters follow followed base name
  rw [h] at hEnters
  generalize hResult : (Except.ok state' : Except Unresolved _) = result at hEnters
  cases hEnters with
  | stay => exact Or.inl (Except.ok.inj hResult)
  | up => exact Or.inr (Or.inl (Except.ok.inj hResult))
  | item hStay hUp hItem =>
    exact Or.inr (Or.inr (Or.inl ⟨hStay, hUp, hItem, Except.ok.inj hResult⟩))
  | known _ hKnown =>
    exact Or.inr (Or.inr (Or.inr (Or.inl ⟨_, hKnown, Except.ok.inj hResult⟩)))
  | circle => cases hResult
  | @link target =>
    cases hInner : follow ((base ++ [name], none) :: followed, base) target with
    | error fault =>
      rw [hInner] at hResult
      cases hResult
    | ok inner =>
      rw [hInner] at hResult
      exact Or.inr (Or.inr (Or.inr (Or.inr ⟨target, inner, hInner, Except.ok.inj hResult⟩)))

/-- What every step of a walk keeps, the walk keeps. -/
theorem enterAll_keeps {R : Followed × Place → Followed × Place → Prop}
    (hRefl : ∀ state, R state state) (hTrans : ∀ a b c, R a b → R b c → R a c)
    (hStep : ∀ name ∈ names, ∀ state state', tree.enter follow state name = .ok state' →
      R state state')
    (h : tree.enterAll follow state names = .ok state') : R state state' := by
  induction names generalizing state with
  | nil =>
    cases h
    exact hRefl _
  | cons name names ih =>
    rw [enterAll] at h
    cases hEnter : tree.enter follow state name with
    | error fault =>
      rw [hEnter] at h
      cases h
    | ok middle =>
      rw [hEnter] at h
      exact hTrans _ _ _ (hStep name List.mem_cons_self _ _ hEnter)
        (ih (fun n hn => hStep n (List.mem_cons_of_mem _ hn)) h)

theorem continues_enter
    (hFollow : ∀ state path state', follow state path = .ok state' →
      Continues (Prod.fst state) state'.1)
    (h : tree.enter follow state name = .ok state') : Continues state.1 state'.1 := by
  obtain ⟨followed, base⟩ := state
  rcases exists_of_enter_eq_ok h with rfl | rfl | ⟨-, -, -, rfl⟩ | ⟨dest, -, rfl⟩ |
    ⟨target, inner, hInner, rfl⟩
  · exact .refl followed
  · exact .refl followed
  · exact .refl followed
  · exact .refl followed
  · exact (hFollow _ _ _ hInner).concluded

theorem continues_enterAll
    (hFollow : ∀ state path state', follow state path = .ok state' →
      Continues (Prod.fst state) state'.1)
    (h : tree.enterAll follow state names = .ok state') : Continues state.1 state'.1 :=
  enterAll_keeps (fun _ => .refl _) (fun _ _ _ => .trans)
    (fun _ _ _ _ => continues_enter hFollow) h

theorem canonicalFrom_succ (tree : FileTree) (depth : Nat) (followed : Followed) (base : Place)
    (path : Text) : tree.canonicalFrom (depth + 1) (followed, base) path =
      tree.enterAll (tree.canonicalFrom depth) (followed, pathStart base path) path.segments := rfl

theorem continues_canonicalFrom {depth : Nat} {path : Text}
    (h : tree.canonicalFrom depth state path = .ok state') : Continues state.1 state'.1 := by
  induction depth generalizing state path state' with
  | zero => cases h
  | succ depth ih =>
    obtain ⟨followed, base⟩ := state
    have hFollow : ∀ state path state', tree.canonicalFrom depth state path = .ok state' →
        Continues state.1 state'.1 := fun _ _ _ => ih
    rw [canonicalFrom_succ] at h
    have hOn := continues_enterAll hFollow h
    exact hOn

/-! ### Room -/

theorem andThen_eq_tooDeep_iff {fault : Unresolved} :
    fault.andThen names = .tooDeep ↔ fault = .tooDeep := by
  cases fault <;> simp [Unresolved.andThen]

theorem enterAll_ne_tooDeep
    (hInner : ∀ followed base path, Followed.newLinks followed tree < depth →
      tree.canonicalFrom depth (followed, base) path ≠ .error .tooDeep)
    (h : followed.newLinks tree ≤ depth) :
    tree.enterAll (tree.canonicalFrom depth) (followed, base) names ≠ .error .tooDeep := by
  induction names generalizing followed base with
  | nil => exact nofun
  | cons name names ih =>
    rw [enterAll]
    cases hEnter : tree.enter (tree.canonicalFrom depth) (followed, base) name with
    | ok state =>
      have hOn := continues_enter (fun _ _ _ => continues_canonicalFrom) hEnter
      exact ih (Nat.le_trans (newLinks_le hOn) h)
    | error fault =>
      simp only [ne_eq, Except.error.injEq, andThen_eq_tooDeep_iff]
      rintro rfl
      have hEnters := tree.enters (tree.canonicalFrom depth) followed base name
      rw [hEnter] at hEnters
      generalize hResult : (Except.error .tooDeep : Except Unresolved (Followed × Place)) = result
        at hEnters
      cases hEnters with
      | stay | up | item | known | circle => cases hResult
      | @link target hItem hNew =>
        have hLt := @newLinks_lt tree followed _ none target hItem hNew
        have hNot := hInner ((base ++ [name], none) :: followed) base target (by omega)
        cases hWay : tree.canonicalFrom depth ((base ++ [name], none) :: followed, base) target with
        | ok state =>
          rw [hWay] at hResult
          cases hResult
        | error fault =>
          rw [hWay] at hResult hNot
          cases hResult
          exact hNot rfl

theorem canonicalFrom_ne_tooDeep {path : Text} (h : followed.newLinks tree < depth) :
    tree.canonicalFrom depth (followed, base) path ≠ .error .tooDeep := by
  induction depth generalizing followed base path with
  | zero => omega
  | succ depth ih =>
    exact enterAll_ne_tooDeep (fun _ _ _ => ih) (Nat.le_of_lt_succ h)

/-- Whether or not links lead in a circle, room for all links is enough. -/
theorem canonical_ne_tooDeep {room : Nat} (h : (tree.items.countP fun e => e.2.isLink) ≤ room)
    (base : Place) (path : Text) : tree.canonical room base path ≠ .error .tooDeep := by
  have hAll := @enterAll_ne_tooDeep tree (pathStart base path) room (pathNames path) []
    (fun _ _ _ => canonicalFrom_ne_tooDeep) (by rwa [newLinks_nil])
  rw [canonical]
  cases hWay : tree.enterAll (tree.canonicalFrom room) ([], pathStart base path)
    (pathNames path) with
  | ok state => exact nofun
  | error fault =>
    rw [hWay] at hAll
    exact fun hDeep => hAll (by cases hDeep; rfl)

end Steps

/-! ### What is there -/

/-- The names of a walk lead to its end, and the notes stay true. -/
theorem Leads.enterAll (h : tree.Leads base links names dest links')
    (hTrue : followed.IsTrue tree) (hOutlasts : followed.Outlasts tree (links' - links))
    (hDepth : links' - links ≤ depth) :
    ∃ followed', tree.enterAll (tree.canonicalFrom depth) (followed, base) names =
        .ok (followed', dest) ∧ followed'.IsTrue tree := by
  induction h generalizing followed depth with
  | done => exact ⟨followed, rfl, hTrue⟩
  | stay hDirectory hName _ ih =>
    rw [FileTree.enterAll, enter, if_pos hName]
    exact ih hTrue hOutlasts hDepth
  | @up base dest links links' name names hDirectory hName _ ih =>
    have hStay : ¬ (name = "" ∨ name = ".") := by
      subst hName
      decide
    rw [FileTree.enterAll, enter, if_neg hStay, if_pos hName]
    exact ih hTrue hOutlasts hDepth
  | @item base dest links links' name names item hDirectory hItem hLink hRest ih =>
    obtain ⟨hStay, hUp⟩ := ne_of_item?_eq_some hItem
    have hEnter : tree.enter (tree.canonicalFrom depth) (followed, base) name =
        .ok (followed, base ++ [name]) := by
      simp only [enter, if_neg hStay, if_neg hUp, hItem]
      cases item with
      | link target => cases hLink
      | _ => rfl
    rw [FileTree.enterAll, hEnter]
    exact ih hTrue hOutlasts hDepth
  | @link base middle dest links links₁ links' name target names hDirectory hItem hMax hInner hRest
      ihInner ih =>
    obtain ⟨hStay, hUp⟩ := ne_of_item?_eq_some hItem
    have hInnerLe := hInner.links_le
    have hRestLe := hRest.links_le
    obtain ⟨links₀, -, hFirst⟩ := hInner.fewer (Nat.le_add_left 1 links)
    have hStands : tree.StandsFor (base ++ [name]) middle :=
      .link hItem (by rwa [List.dropLast_concat])
    -- the link leads to `middle` by what is noted of it or by following it, and cannot be met while
    -- it is being followed
    have hEnter : ∃ followed₁, tree.enter (tree.canonicalFrom depth) (followed, base) name =
          .ok (followed₁, middle) ∧ followed₁.IsTrue tree := by
      simp only [enter, if_neg hStay, if_neg hUp, hItem]
      cases hNoted : followed.lookup (base ++ [name]) with
      | some known =>
        cases known with
        | some known =>
          obtain rfl := (hTrue _ _ hNoted).unique hStands
          exact ⟨followed, rfl, hTrue⟩
        | none =>
          have hLong := hOutlasts _ hNoted target hItem middle (links + 1) links₁
            (by rwa [List.dropLast_concat])
          omega
      | none =>
        obtain ⟨room, rfl⟩ : ∃ room, depth = room + 1 := ⟨depth - 1, by omega⟩
        obtain ⟨followed₁, hWay, hTrue₁⟩ := @ihInner room ((base ++ [name], none) :: followed)
          (hTrue.pending (base ++ [name])) (hOutlasts.pending hItem hInner (by omega)) (by omega)
        refine ⟨(base ++ [name], some middle) :: followed₁, ?_, hTrue₁.concluded hStands⟩
        simp only [canonicalFrom_succ, hWay, Except.map]
    obtain ⟨followed₁, hFound, hTrue₁⟩ := hEnter
    have hOn := continues_enter (fun _ _ _ => continues_canonicalFrom) hFound
    rw [FileTree.enterAll, hFound]
    exact ih hTrue₁ (hOutlasts.mono (by omega) hOn) (by omega)

/-- Names that stay where they are may be left out. -/
theorem Leads.pathNames {path : Text} (h : tree.Leads base links path.segments dest links') :
    tree.Leads base links (pathNames path) dest links' := by
  rw [DependencyMap.pathNames]
  generalize path.segments = names at h
  have hKept {base : Place} {name : Text} {item : Item}
      (hItem : tree.item? (base ++ [name]) = some item) :
      (!(name.isEmpty || decide (name = "."))) = true := by
    have hStay := (ne_of_item?_eq_some hItem).1
    simpa [Text.ofString] using hStay
  induction h with
  | done => exact .done
  | stay hDirectory hName _ ih => rcases hName with rfl | rfl <;> exact ih
  | up hDirectory hName _ ih =>
    subst hName
    exact .up hDirectory rfl ih
  | item hDirectory hItem hLink _ ih =>
    rw [List.filter_cons, if_pos (hKept hItem)]
    exact .item hDirectory hItem hLink ih
  | link hDirectory hItem hMax hInner _ _ ih =>
    rw [List.filter_cons, if_pos (hKept hItem)]
    exact .link hDirectory hItem hMax hInner ih

theorem Leads.links_le_maxLinks (h : tree.Leads base links names dest links')
    (hLinks : links ≤ maxLinks) : links' ≤ maxLinks := by
  induction h with
  | done => exact hLinks
  | stay _ _ _ ih => exact ih hLinks
  | up _ _ _ ih => exact ih hLinks
  | item _ _ _ _ ih => exact ih hLinks
  | link _ _ hMax _ _ ihInner ih => exact ih (ihInner hMax)

theorem leads_of_reach {path : Text} (h : tree.reach base path = .ok dest) :
    ∃ links, tree.Leads (pathStart base path) 0 path.segments dest links := by
  rw [reach] at h
  split at h
  · cases h
  split at h
  · cases h
  · cases hReach : tree.reachFrom maxLinks (base, 0) path with
    | error fault =>
      rw [hReach] at h
      cases h
    | ok state =>
      rw [hReach] at h
      cases h
      exact ⟨state.2, (reachFrom_eq_ok_iff (Nat.le_refl _)).mp hReach⟩

/-- Where a path leads to something, its canonical place is the place of that, if there is room for
as many links as may be followed. -/
theorem canonical_eq_of_reach {path : Text} {room : Nat} (hRoom : maxLinks ≤ room)
    (h : tree.reach base path = .ok dest) : tree.canonical room base path = .ok dest := by
  obtain ⟨links, hWalk⟩ := leads_of_reach h
  have hLinks := hWalk.links_le_maxLinks (Nat.zero_le _)
  have hTrue : Followed.IsTrue [] tree := fun _ _ hNoted => by cases hNoted
  have hOutlasts : Followed.Outlasts [] tree (links - 0) := fun _ hNoted => by cases hNoted
  obtain ⟨followed, hWay, -⟩ :=
    hWalk.pathNames.enterAll hTrue hOutlasts (Nat.le_trans hLinks hRoom)
  simp only [canonical, hWay, Except.map]

end FileTree

end DependencyMap
