import DependencyMap.Proofs.FileTree.Walking

/-!
# Removing an item from a file tree

What is removed is no directory, so that the rest is a file tree again. A walk in what is left is
one in the whole tree (`Leads.of_remove`), and a walk in the whole tree is one in what is left
unless it ends where the removed item led (`Leads.remove`): from there it could not have gone on.
-/

namespace DependencyMap

namespace FileTree

/-- The tree without what stands at a place; a directory stays. -/
def remove (tree : FileTree) (place : Place) : FileTree :=
  if h : tree.isDirectory place = true then tree
  else
    { items := tree.items.filter fun e => e.1 ≠ place
      distinct := tree.distinct.sublist (List.filter_sublist.map _)
      named := fun e he => tree.named e (List.mem_of_mem_filter he)
      closed := fun e he => (tree.closed e (List.mem_of_mem_filter he)).imp_right fun hIn =>
        List.mem_filter.mpr ⟨hIn, decide_eq_true fun hSame => h (isDirectory_iff.mpr
          (Or.inr (hSame ▸ hIn)))⟩ }

variable {tree : FileTree} {removed place base dest : Place} {links links' : Nat}
  {names : List Text}

theorem item?_remove (h : tree.isDirectory removed = false) :
    (tree.remove removed).item? place = if place = removed then none else tree.item? place := by
  by_cases hTop : place = []
  · subst hTop
    have hNe : [] ≠ removed := by
      rintro rfl
      simp [isDirectory_nil] at h
    simp [hNe, item?]
  · have hItems : (tree.remove removed).items = tree.items.filter fun e => e.1 ≠ removed := by
      rw [remove, dif_neg (by simp [h])]
    apply Option.ext
    intro item
    rw [item?_eq_some_iff hTop, hItems]
    split
    · rename_i hSame
      simp [hSame]
    · rename_i hNe
      simp [item?_eq_some_iff hTop, hNe]

theorem item?_remove_of_ne (h : tree.isDirectory removed = false) (hNe : place ≠ removed) :
    (tree.remove removed).item? place = tree.item? place := by
  rw [item?_remove h, if_neg hNe]

theorem item?_of_remove {item : Item} (h : tree.isDirectory removed = false)
    (hItem : (tree.remove removed).item? place = some item) : tree.item? place = some item := by
  rw [item?_remove h] at hItem
  split at hItem
  · cases hItem
  · exact hItem

theorem isDirectory_remove (h : tree.isDirectory removed = false) :
    (tree.remove removed).isDirectory place = tree.isDirectory place := by
  by_cases hSame : place = removed
  · rw [hSame, h, isDirectory, item?_remove h, if_pos rfl]
    rfl
  · rw [isDirectory, isDirectory, item?_remove_of_ne h hSame]

/-- A walk in what is left is one in the whole tree. -/
theorem Leads.of_remove (h : tree.isDirectory removed = false)
    (hWalk : (tree.remove removed).Leads base links names dest links') :
    tree.Leads base links names dest links' := by
  induction hWalk with
  | done => exact .done
  | stay hDirectory hName _ ih => exact .stay (isDirectory_remove h ▸ hDirectory) hName ih
  | up hDirectory hName _ ih => exact .up (isDirectory_remove h ▸ hDirectory) hName ih
  | item hDirectory hItem hLink _ ih =>
    exact .item (isDirectory_remove h ▸ hDirectory) (item?_of_remove h hItem) hLink ih
  | link hDirectory hItem hMax _ _ ihInner ih =>
    exact .link (isDirectory_remove h ▸ hDirectory) (item?_of_remove h hItem) hMax ihInner ih

/-- A walk that does not end where the removed item led does without it. -/
theorem Leads.remove (h : tree.isDirectory removed = false)
    (hWalk : tree.Leads base links names dest links')
    (hRemoved : ∀ d, tree.StandsFor removed d → tree.isDirectory d = false ∧ d ≠ dest) :
    (tree.remove removed).Leads base links names dest links' := by
  induction hWalk with
  | done => exact .done
  | stay hDirectory hName _ ih =>
    exact .stay (isDirectory_remove h ▸ hDirectory) hName (ih hRemoved)
  | up hDirectory hName _ ih =>
    exact .up (isDirectory_remove h ▸ hDirectory) hName (ih hRemoved)
  | @item base dest links links' name names item hDirectory hItem hLink hRest ih =>
    refine .item (isDirectory_remove h ▸ hDirectory) ?_ hLink (ih hRemoved)
    rw [item?_remove_of_ne h, hItem]
    intro hSame
    -- a walk that comes to the removed file ends there
    have hStands : tree.StandsFor removed (base ++ [name]) := by
      rw [← hSame]
      exact .itself hItem hLink rfl
    obtain ⟨hFile, hNe⟩ := hRemoved _ hStands
    exact hNe (hRest.eq_of_not_isDirectory hFile).2.symm
  | @link base middle dest links links₁ links' name target names hDirectory hItem hMax hInner hRest
      ihInner ih =>
    have hMiddle : ∀ d, tree.StandsFor removed d → tree.isDirectory d = false ∧ d ≠ middle := by
      intro d hStands
      obtain ⟨hFile, hNe⟩ := hRemoved d hStands
      refine ⟨hFile, ?_⟩
      rintro rfl
      exact hNe (hRest.eq_of_not_isDirectory hFile).2.symm
    refine .link (isDirectory_remove h ▸ hDirectory) ?_ hMax (ihInner hMiddle) (ih hRemoved)
    rw [item?_remove_of_ne h, hItem]
    intro hSame
    obtain ⟨few, -, hFew⟩ := hInner.fewer (Nat.le_add_left 1 links)
    have hStands : tree.StandsFor removed middle := by
      rw [← hSame]
      exact .link hItem (by rwa [List.dropLast_concat])
    exact (hMiddle _ hStands).2 rfl

end FileTree

end DependencyMap
