import DependencyMap.FileTree.Resolving
import Mathlib.Data.List.Basic

/-!
# Walking through a file tree

`FileTree.Leads` says of names to what place they lead from another, one name after the other and
through the links on the way, with no number to bound a recursion: a link is followed by walking its
target, and no more links are followed than there may be. What the walk of the program finds is just
that (`reachFrom_eq_ok_iff`, `standsFor_eq_ok_iff`), so that names lead to one place at most
(`Leads.unique`).

A walk ends at a file or a directory (`Leads.directory_or_file`), nothing lies behind a file
(`Leads.eq_of_not_isDirectory`), and names that lead from a place with links already followed lead
to the same place with fewer (`Leads.fewer`), so that how many were followed before makes no
difference (`Leads.agree`). Where no link stands on the way, the way is one of directories
(`leads_concat_iff`).
-/

namespace DependencyMap

def Item.isLink : Item → Bool
  | .link _ => true
  | _ => false

namespace FileTree

/-- The names lead from `base` to `dest`, where `links` links were followed before and `links'` in
the end. -/
inductive Leads (tree : FileTree) : Place → Nat → List Text → Place → Nat → Prop
  | done {base : Place} {links : Nat} : Leads tree base links [] base links
  | stay {base dest : Place} {links links' : Nat} {name : Text} {names : List Text} :
      tree.isDirectory base → name = "" ∨ name = "." → Leads tree base links names dest links' →
      Leads tree base links (name :: names) dest links'
  | up {base dest : Place} {links links' : Nat} {name : Text} {names : List Text} :
      tree.isDirectory base → name = ".." → Leads tree base.dropLast links names dest links' →
      Leads tree base links (name :: names) dest links'
  | item {base dest : Place} {links links' : Nat} {name : Text} {names : List Text} {item : Item} :
      tree.isDirectory base → tree.item? (base ++ [name]) = some item → item.isLink = false →
      Leads tree (base ++ [name]) links names dest links' →
      Leads tree base links (name :: names) dest links'
  | link {base middle dest : Place} {links links₁ links' : Nat} {name target : Text}
      {names : List Text} :
      tree.isDirectory base → tree.item? (base ++ [name]) = some (.link target) →
      links < maxLinks →
      Leads tree (pathStart base target) (links + 1) target.segments middle links₁ →
      Leads tree middle links₁ names dest links' →
      Leads tree base links (name :: names) dest links'

variable {tree : FileTree} {base dest : Place} {links links' : Nat} {name : Text}
  {names : List Text}

/-- What stands under a name is called by none of the names of a directory itself and of the one
above. -/
theorem ne_of_item?_eq_some {item : Item} (h : tree.item? (base ++ [name]) = some item) :
    ¬ (name = "" ∨ name = ".") ∧ name ≠ ".." := by
  have hNamed := (tree.named _ ((item?_eq_some_iff (by simp)).mp h)).2
  have hName : isName name = true := by simp_all
  refine ⟨?_, ?_⟩
  · rintro (rfl | rfl) <;> exact absurd hName (by decide)
  · rintro rfl
    exact absurd hName (by decide)

theorem arrive_eq_ok_iff {follow : Place × Nat → Text → Except PathFault (Place × Nat)}
    {place : Place} {state : Place × Nat} :
    tree.arrive follow links place = .ok state ↔
      (∃ item, tree.item? place = some item ∧ item.isLink = false ∧ state = (place, links)) ∨
        ∃ target, tree.item? place = some (.link target) ∧ links < maxLinks ∧
          follow (place.dropLast, links + 1) target = .ok state := by
  rw [arrive]
  cases tree.item? place with
  | none => simp
  | some item =>
    cases item with
    | link target =>
      by_cases hLinks : links < maxLinks <;> simp [hLinks, Item.isLink]
    | file bytes =>
      simp [Item.isLink]
      exact eq_comm
    | directory =>
      simp [Item.isLink]
      exact eq_comm

theorem step_eq_ok_iff {follow : Place × Nat → Text → Except PathFault (Place × Nat)}
    {state : Place × Nat} :
    tree.step follow (base, links) name = .ok state ↔ tree.isDirectory base ∧
      (((name = "" ∨ name = ".") ∧ state = (base, links)) ∨
        (name = ".." ∧ state = (base.dropLast, links)) ∨
        (∃ item, tree.item? (base ++ [name]) = some item ∧ item.isLink = false ∧
          state = (base ++ [name], links)) ∨
        ∃ target, tree.item? (base ++ [name]) = some (.link target) ∧ links < maxLinks ∧
          follow (base, links + 1) target = .ok state) := by
  have hArrive := @arrive_eq_ok_iff tree links follow (base ++ [name]) state
  rw [List.dropLast_concat] at hArrive
  rw [step]
  cases hBase : tree.isDirectory base with
  | false => simp
  | true =>
    simp only [Bool.not_true, Bool.false_eq_true, if_false, true_and]
    by_cases hStay : name = "" ∨ name = "."
    · have hUp : name ≠ ".." := by rcases hStay with rfl | rfl <;> decide
      have hNone : ∀ item, tree.item? (base ++ [name]) ≠ some item :=
        fun item h => (ne_of_item?_eq_some h).1 hStay
      simp [hStay, hUp, hNone]
      exact eq_comm
    by_cases hUp : name = ".."
    · have hNone : ∀ item, tree.item? (base ++ [name]) ≠ some item :=
        fun item h => (ne_of_item?_eq_some h).2 hUp
      rw [if_neg hStay, if_pos hUp]
      simp only [hUp] at hNone hStay ⊢
      simp [hNone, hStay]
      exact eq_comm
    · rw [if_neg hStay, if_neg hUp, hArrive]
      simp only [hStay, hUp, false_and, false_or]

namespace Leads

theorem links_le (h : tree.Leads base links names dest links') : links ≤ links' := by
  induction h with
  | done => exact Nat.le_refl _
  | stay _ _ _ ih => exact ih
  | up _ _ _ ih => exact ih
  | item _ _ _ _ ih => exact ih
  | link _ _ _ _ _ ihInner ih => omega

end Leads

/-- A walk along names, when what a link leads to is found by walking its target. -/
theorem foldlM_step_eq_ok_iff {follow : Place × Nat → Text → Except PathFault (Place × Nat)}
    {fewest : Nat}
    (hFollow : ∀ base links target dest links', fewest ≤ links → links < maxLinks →
      (follow (base, links + 1) target = .ok (dest, links') ↔
        tree.Leads (pathStart base target) (links + 1) target.segments dest links'))
    (hFewest : fewest ≤ links) :
    names.foldlM (tree.step follow) (base, links) = .ok (dest, links') ↔
      tree.Leads base links names dest links' := by
  induction names generalizing base links with
  | nil =>
    constructor
    · intro h
      cases h
      exact .done
    · intro h
      cases h
      rfl
  | cons name names ih =>
    have hCons : (name :: names).foldlM (tree.step follow) (base, links) = .ok (dest, links') ↔
        ∃ middle links₁, tree.step follow (base, links) name = .ok (middle, links₁) ∧
          names.foldlM (tree.step follow) (middle, links₁) = .ok (dest, links') := by
      rw [List.foldlM_cons]
      cases tree.step follow (base, links) name with
      | error fault => simp [bind, Except.bind]
      | ok state =>
        obtain ⟨middle, links₁⟩ := state
        simp [bind, Except.bind]
    rw [hCons]
    constructor
    · rintro ⟨middle, links₁, hStep, hRest⟩
      obtain ⟨hBase, hCase⟩ := step_eq_ok_iff.mp hStep
      rcases hCase with ⟨hName, hState⟩ | ⟨hName, hState⟩ | ⟨item, hItem, hLink, hState⟩ |
        ⟨target, hItem, hMax, hInner⟩
      · cases hState
        exact .stay hBase hName ((ih hFewest).mp hRest)
      · cases hState
        exact .up hBase hName ((ih hFewest).mp hRest)
      · cases hState
        exact .item hBase hItem hLink ((ih hFewest).mp hRest)
      · have hWalk := (hFollow _ _ _ _ _ hFewest hMax).mp hInner
        have hLe := hWalk.links_le
        exact .link hBase hItem hMax hWalk ((ih (by omega)).mp hRest)
    · intro h
      cases h with
      | stay hBase hName hRest =>
        exact ⟨base, links, step_eq_ok_iff.mpr ⟨hBase, Or.inl ⟨hName, rfl⟩⟩, (ih hFewest).mpr hRest⟩
      | up hBase hName hRest =>
        exact ⟨_, _, step_eq_ok_iff.mpr ⟨hBase, Or.inr (Or.inl ⟨hName, rfl⟩)⟩,
          (ih hFewest).mpr hRest⟩
      | item hBase hItem hLink hRest =>
        exact ⟨_, _, step_eq_ok_iff.mpr ⟨hBase, Or.inr (Or.inr (Or.inl ⟨_, hItem, hLink, rfl⟩))⟩,
          (ih hFewest).mpr hRest⟩
      | link hBase hItem hMax hInner hRest =>
        have hLe := hInner.links_le
        exact ⟨_, _, step_eq_ok_iff.mpr ⟨hBase, Or.inr (Or.inr (Or.inr ⟨_, hItem, hMax,
          (hFollow _ _ _ _ _ hFewest hMax).mpr hInner⟩))⟩, (ih (by omega)).mpr hRest⟩

/-- What is reached along a path, when there is room for the links that may still be followed. -/
theorem reachFrom_eq_ok_iff {depth : Nat} {path : Text} (h : maxLinks ≤ depth + links) :
    tree.reachFrom depth (base, links) path = .ok (dest, links') ↔
      tree.Leads (pathStart base path) links path.segments dest links' := by
  induction depth generalizing base links path dest links' with
  | zero =>
    rw [reachFrom]
    exact foldlM_step_eq_ok_iff (fun _ _ _ _ _ hFewest hMax => by omega) (Nat.le_refl links)
  | succ depth ih =>
    rw [reachFrom]
    exact foldlM_step_eq_ok_iff (fun _ _ _ _ _ hFewest _ => ih (by omega)) (Nat.le_refl links)

/-- What is found along names is one place, after one number of links. -/
theorem Leads.unique {dest₁ dest₂ : Place} {links₁ links₂ : Nat}
    (h₁ : tree.Leads base links names dest₁ links₁)
    (h₂ : tree.Leads base links names dest₂ links₂) : dest₁ = dest₂ ∧ links₁ = links₂ := by
  have hWalk (dest : Place) (links' : Nat) :
      names.foldlM (tree.step (tree.reachFrom maxLinks)) (base, links) = .ok (dest, links') ↔
        tree.Leads base links names dest links' :=
    foldlM_step_eq_ok_iff (fun _ _ _ _ _ _ _ => reachFrom_eq_ok_iff (by omega)) (Nat.zero_le _)
  have hSame := ((hWalk dest₁ links₁).mpr h₁).symm.trans ((hWalk dest₂ links₂).mpr h₂)
  cases hSame
  exact ⟨rfl, rfl⟩

theorem isDirectory_eq_of_item? {place : Place} {item : Item} (h : tree.item? place = some item)
    (hLink : item.isLink = false) :
    tree.isDirectory place = true ∨ ∃ bytes, tree.item? place = some (.file bytes) := by
  cases item with
  | file bytes => exact Or.inr ⟨bytes, h⟩
  | directory => exact Or.inl (by simp [isDirectory, h])
  | link target => cases hLink

theorem isDirectory_dropLast_of_isDirectory {place : Place} (h : tree.isDirectory place = true) :
    tree.isDirectory place.dropLast = true :=
  isDirectory_dropLast (by simpa [isDirectory] using h)

theorem isDirectory_pathStart {path : Text} (h : tree.isDirectory base = true) :
    tree.isDirectory (pathStart base path) = true := by
  rw [pathStart]
  split
  · exact isDirectory_nil tree
  · exact h

namespace Leads

/-- Names lead to a directory or a file. -/
theorem directory_or_file (h : tree.Leads base links names dest links')
    (hBase : tree.isDirectory base = true ∨ ∃ bytes, tree.item? base = some (.file bytes)) :
    tree.isDirectory dest = true ∨ ∃ bytes, tree.item? dest = some (.file bytes) := by
  induction h with
  | done => exact hBase
  | stay _ _ _ ih => exact ih hBase
  | up hDirectory _ _ ih => exact ih (Or.inl (isDirectory_dropLast_of_isDirectory hDirectory))
  | item _ hItem hLink _ ih => exact ih (isDirectory_eq_of_item? hItem hLink)
  | link hDirectory _ _ _ _ ihInner ih =>
    exact ih (ihInner (Or.inl (isDirectory_pathStart hDirectory)))

/-- Nothing lies behind what is no directory. -/
theorem eq_of_not_isDirectory (h : tree.Leads base links names dest links')
    (hBase : tree.isDirectory base = false) : names = [] ∧ dest = base := by
  cases h with
  | done => exact ⟨rfl, rfl⟩
  | stay hDirectory => simp [hBase] at hDirectory
  | up hDirectory => simp [hBase] at hDirectory
  | item hDirectory => simp [hBase] at hDirectory
  | link hDirectory => simp [hBase] at hDirectory

/-- With fewer links followed before, the names lead to the same place through as many links. -/
theorem fewer (h : tree.Leads base links names dest links') {few : Nat} (hFew : few ≤ links) :
    ∃ few', few' + links = links' + few ∧ tree.Leads base few names dest few' := by
  induction h generalizing few with
  | done => exact ⟨few, Nat.add_comm .., .done⟩
  | stay hDirectory hName _ ih =>
    obtain ⟨few', hSame, hRest⟩ := ih hFew
    exact ⟨few', hSame, .stay hDirectory hName hRest⟩
  | up hDirectory hName _ ih =>
    obtain ⟨few', hSame, hRest⟩ := ih hFew
    exact ⟨few', hSame, .up hDirectory hName hRest⟩
  | item hDirectory hItem hLink _ ih =>
    obtain ⟨few', hSame, hRest⟩ := ih hFew
    exact ⟨few', hSame, .item hDirectory hItem hLink hRest⟩
  | @link _ _ _ _ links₁ _ _ _ _ hDirectory hItem hMax hInnerOld _ ihInner ih =>
    have hLe := hInnerOld.links_le
    obtain ⟨few₁, hSame₁, hInner⟩ := ihInner (Nat.succ_le_succ hFew)
    have hFew₁ : few₁ ≤ links₁ := by omega
    obtain ⟨few', hSame, hRest⟩ := ih hFew₁
    exact ⟨few', by omega, .link hDirectory hItem (by omega) hInner hRest⟩

/-- However many links were followed before, the names lead to one place through one number of
links. -/
theorem agree {dest₁ dest₂ : Place} {a b c d : Nat} (h₁ : tree.Leads base a names dest₁ b)
    (h₂ : tree.Leads base c names dest₂ d) : dest₁ = dest₂ ∧ b + c = d + a := by
  obtain ⟨few₁, hSame₁, hFirst⟩ := h₁.fewer (Nat.zero_le a)
  obtain ⟨few₂, hSame₂, hSecond⟩ := h₂.fewer (Nat.zero_le c)
  obtain ⟨rfl, rfl⟩ := hFirst.unique hSecond
  exact ⟨rfl, by omega⟩

end Leads

/-! ### What one item stands for -/

/-- What stands at `place` leads to `dest`: it is there itself or links to it. -/
inductive StandsFor (tree : FileTree) (place dest : Place) : Prop
  | itself {item : Item} : tree.item? place = some item → item.isLink = false → dest = place →
      StandsFor tree place dest
  | link {target : Text} {links : Nat} : tree.item? place = some (.link target) →
      tree.Leads (pathStart place.dropLast target) 1 target.segments dest links →
      StandsFor tree place dest

theorem standsFor_eq_ok_iff {place : Place} :
    tree.standsFor place = .ok dest ↔ tree.StandsFor place dest := by
  have hArrive : tree.standsFor place = .ok dest ↔
      ∃ links, tree.arrive (tree.reachFrom maxLinks) 0 place = .ok (dest, links) := by
    rw [standsFor]
    cases tree.arrive (tree.reachFrom maxLinks) 0 place with
    | error fault => simp [Except.map]
    | ok state =>
      obtain ⟨place, links⟩ := state
      simp [Except.map]
  rw [hArrive]
  simp only [arrive_eq_ok_iff]
  constructor
  · rintro ⟨links, ⟨item, hItem, hLink, hState⟩ | ⟨target, hItem, -, hWalk⟩⟩
    · cases hState
      exact .itself hItem hLink rfl
    · exact .link hItem ((reachFrom_eq_ok_iff (by omega)).mp hWalk)
  · intro h
    cases h with
    | itself hItem hLink hSame =>
      subst hSame
      exact ⟨0, Or.inl ⟨_, hItem, hLink, rfl⟩⟩
    | link hItem hWalk =>
      exact ⟨_, Or.inr ⟨_, hItem, by decide, (reachFrom_eq_ok_iff (by omega)).mpr hWalk⟩⟩

theorem StandsFor.unique {place dest' : Place} (h : tree.StandsFor place dest)
    (h' : tree.StandsFor place dest') : dest = dest' := by
  have hSame := (standsFor_eq_ok_iff.mpr h).symm.trans (standsFor_eq_ok_iff.mpr h')
  cases hSame
  rfl

theorem StandsFor.directory_or_file {place : Place} (h : tree.StandsFor place dest) :
    tree.isDirectory dest = true ∨ ∃ bytes, tree.item? dest = some (.file bytes) := by
  cases h with
  | itself hItem hLink hSame => exact hSame ▸ isDirectory_eq_of_item? hItem hLink
  | link hItem hWalk =>
    exact hWalk.directory_or_file (Or.inl (isDirectory_pathStart (isDirectory_dropLast hItem)))

/-- The last name of a path is entered as what stands under it. -/
theorem leads_singleton_iff (hName : isName name = true) :
    (∃ links', tree.Leads base 0 [name] dest links') ↔
      tree.isDirectory base = true ∧ tree.StandsFor (base ++ [name]) dest := by
  constructor
  · rintro ⟨links', h⟩
    cases h with
    | stay _ hStay => rcases hStay with rfl | rfl <;> exact absurd hName (by decide)
    | up _ hUp => exact absurd (hUp ▸ hName) (by decide)
    | item hDirectory hItem hLink hRest =>
      cases hRest
      exact ⟨hDirectory, .itself hItem hLink rfl⟩
    | link hDirectory hItem _ hInner hRest =>
      cases hRest
      exact ⟨hDirectory, .link hItem (by rwa [List.dropLast_concat])⟩
  · rintro ⟨hDirectory, hStands⟩
    cases hStands with
    | itself hItem hLink hSame => exact ⟨0, .item hDirectory hItem hLink (hSame ▸ .done)⟩
    | link hItem hWalk =>
      rw [List.dropLast_concat] at hWalk
      exact ⟨_, .link hDirectory hItem (by decide) hWalk .done⟩

/-- Where no link stands on the way to the last name, the way is one of directories. -/
theorem leads_concat_iff {way : List Text} (hNames : ∀ n ∈ way, isName n = true)
    (hLinks : ∀ n, 0 < n → n ≤ way.length → ∀ target,
      tree.item? (base ++ way.take n) ≠ some (.link target)) :
    (∃ links', tree.Leads base 0 (way ++ [name]) dest links') ↔
      (∀ n ≤ way.length, tree.isDirectory (base ++ way.take n) = true) ∧
        ∃ links', tree.Leads (base ++ way) 0 [name] dest links' := by
  induction way generalizing base with
  | nil =>
    have hBase (h : ∃ links', tree.Leads base 0 [name] dest links') :
        tree.isDirectory base = true := by
      obtain ⟨links', h⟩ := h
      by_contra hNot
      cases (h.eq_of_not_isDirectory (Bool.not_eq_true _ ▸ hNot)).1
    simpa using hBase
  | cons first way ih =>
    have hFirst := hNames first List.mem_cons_self
    have hAssoc (n : Nat) :
        base ++ (first :: way).take (n + 1) = base ++ [first] ++ way.take n := by
      simp
    have hRest := ih (fun n hn => hNames n (List.mem_cons_of_mem _ hn)) fun n hPos hLe target => by
      rw [← hAssoc n]
      exact hLinks (n + 1) (by omega) (Nat.succ_le_succ hLe) target
    have hWay : (∀ n ≤ (first :: way).length,
          tree.isDirectory (base ++ (first :: way).take n) = true) ↔
        tree.isDirectory base = true ∧
          ∀ n ≤ way.length, tree.isDirectory (base ++ [first] ++ way.take n) = true := by
      constructor
      · intro h
        refine ⟨by simpa using h 0 (Nat.zero_le _), fun n hn => ?_⟩
        rw [← hAssoc n]
        exact h (n + 1) (Nat.succ_le_succ hn)
      · rintro ⟨hBase, h⟩ n hn
        cases n with
        | zero => simpa using hBase
        | succ n =>
          rw [hAssoc n]
          exact h n (Nat.le_of_succ_le_succ hn)
    rw [hWay, and_assoc, List.append_cons base first way, ← hRest]
    constructor
    · rintro ⟨links', h⟩
      cases h with
      | stay _ hStay => rcases hStay with rfl | rfl <;> exact absurd hFirst (by decide)
      | up _ hUp => exact absurd (hUp ▸ hFirst) (by decide)
      | item hDirectory _ _ hOn => exact ⟨hDirectory, links', hOn⟩
      | @link _ _ _ _ _ _ _ target _ _ hItem =>
        exact absurd (by simpa using hItem) (hLinks 1 (by omega) (by simp) target)
    · rintro ⟨hBase, links', hOn⟩
      have hDirectory := (hRest.mp ⟨links', hOn⟩).1 0 (Nat.zero_le _)
      rw [List.take_zero, List.append_nil, isDirectory, decide_eq_true_eq] at hDirectory
      exact ⟨links', .item hBase hDirectory rfl hOn⟩

end FileTree

end DependencyMap
