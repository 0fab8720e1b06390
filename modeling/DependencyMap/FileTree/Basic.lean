import DependencyMap.Text.Utf8

/-!
# File trees

A file tree says what stands at each place, a place being the list of names that lead to it from the
top. The top itself is a directory, at every other place there is one item at most
(`item?_eq_some_iff`), and an item stands in a directory (`isDirectory_dropLast`). A name is not
empty, holds no slash, and is neither of the two that paths use for a directory itself and for the
one above it.
-/

namespace DependencyMap

abbrev Place := List Text

/-- Whether a text can name an item. -/
def isName (t : Text) : Bool :=
  !(([[], ".", ".."] : List Text).contains t) && !t.elem (CodePoint.ofChar '/')

inductive Item
  | file (bytes : Bytes)
  | directory
  /-- A symbolic link and the path it is to be replaced by. -/
  | link (target : Text)
deriving DecidableEq

structure FileTree where
  items : List (Place × Item)
  distinct : (items.map Prod.fst).Nodup
  named : ∀ e ∈ items, e.1 ≠ [] ∧ e.1.all isName
  /-- What an item stands in is the top or a directory of the tree. -/
  closed : ∀ e ∈ items, e.1.dropLast = [] ∨ (e.1.dropLast, .directory) ∈ items

namespace FileTree

def empty : FileTree := ⟨[], List.nodup_nil, by simp, by simp⟩

def item? (tree : FileTree) (place : Place) : Option Item :=
  if place.isEmpty then some .directory
  else (tree.items.find? fun e => e.1 = place).map (·.2)

def isDirectory (tree : FileTree) (place : Place) : Bool := tree.item? place = some .directory

/-- The bytes of the file at a place. -/
def bytes? (tree : FileTree) (place : Place) : Option Bytes :=
  match tree.item? place with
  | some (.file bytes) => some bytes
  | _ => none

theorem item?_eq_some_iff {tree : FileTree} {place : Place} {item : Item} (h : place ≠ []) :
    tree.item? place = some item ↔ (place, item) ∈ tree.items := by
  have hDistinct := tree.distinct
  simp only [item?, List.isEmpty_iff, if_neg h]
  generalize tree.items = items at hDistinct
  induction items with
  | nil => simp
  | cons e items ih =>
    obtain ⟨hNew, hRest⟩ := List.nodup_cons.mp hDistinct
    by_cases hEq : e.1 = place
    · have hNot : (place, item) ∉ items := fun hMem =>
        hNew (hEq ▸ List.mem_map_of_mem (f := Prod.fst) hMem)
      obtain ⟨first, second⟩ := e
      obtain rfl : first = place := hEq
      simp [hNot, eq_comm]
    · have hNe : (place, item) ≠ e := fun hSame => hEq (hSame ▸ rfl)
      simp [hEq, hNe, ih hRest]

theorem isDirectory_nil (tree : FileTree) : tree.isDirectory [] = true := by
  simp [isDirectory, item?]

theorem isDirectory_iff {tree : FileTree} {place : Place} :
    tree.isDirectory place = true ↔ place = [] ∨ (place, .directory) ∈ tree.items := by
  by_cases hTop : place = []
  · simp [hTop, isDirectory_nil]
  · simp [isDirectory, item?_eq_some_iff hTop, hTop]

/-- What stands at a place other than the top stands in a directory. -/
theorem isDirectory_dropLast {tree : FileTree} {place : Place} {item : Item}
    (h : tree.item? place = some item) : tree.isDirectory place.dropLast = true := by
  by_cases hTop : place = []
  · simp [hTop, isDirectory_nil]
  · exact isDirectory_iff.mpr (tree.closed _ ((item?_eq_some_iff hTop).mp h))

theorem notMem_of_item?_eq_none {tree : FileTree} {place : Place} (h : tree.item? place = none) :
    place ∉ tree.items.map Prod.fst := by
  intro hMem
  obtain ⟨⟨first, item⟩, hItem, rfl⟩ := List.mem_map.mp hMem
  by_cases hTop : first = []
  · simp [item?, hTop] at h
  · rw [(item?_eq_some_iff hTop).mpr hItem] at h
    contradiction

theorem ne_nil_of_item?_eq_none {tree : FileTree} {place : Place} (h : tree.item? place = none) :
    place ≠ [] := by
  rintro rfl
  simp [item?] at h

/-- Adds an item under a name, to a directory in which nothing has the name. -/
def addItem (tree : FileTree) (place : Place) (item : Item) : FileTree :=
  if h : tree.item? place = none ∧ place.all isName ∧ tree.isDirectory place.dropLast then
    { items := (place, item) :: tree.items
      distinct := List.nodup_cons.mpr ⟨notMem_of_item?_eq_none h.1, tree.distinct⟩
      named := List.forall_mem_cons.mpr ⟨⟨ne_nil_of_item?_eq_none h.1, h.2.1⟩, tree.named⟩
      closed := List.forall_mem_cons.mpr
        ⟨(isDirectory_iff.mp h.2.2).imp_right (List.mem_cons_of_mem _),
          fun e he => (tree.closed e he).imp_right (List.mem_cons_of_mem _)⟩ }
  else tree

/-- Adds an item together with the directories on the way to it. -/
def add (tree : FileTree) (place : Place) (item : Item) : FileTree :=
  let ways := (List.range place.length).map fun n => place.take n
  (ways.foldl (fun tree way => tree.addItem way .directory) tree).addItem place item

end FileTree

namespace Place

/-- A place as an absolute path. -/
def toPath (place : Place) : Text := "/" ++ Text.ofSegments place

/-- Whether a place lies strictly below another. One whose path begins with two slashes lies below
none whose path does not. -/
def isBelow (place root : Place) : Bool :=
  root.isPrefixOf place && root.length < place.length && place.head? ≠ some []

end Place

end DependencyMap
