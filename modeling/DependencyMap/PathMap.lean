import DependencyMap.Text.Basic

/-!
# Named members and maps from paths

Members with names are kept in the order in which they were first set, and setting a member that is
there replaces its value in its place. A finite map from paths is kept as a list whose paths
increase strictly. Hence a map is determined by what it holds and not by the order in which it was
filled.
-/

namespace DependencyMap

abbrev Members (α : Type) := List (Text × α)

namespace Members

variable {α : Type}

/-- The value of the first member with the name. -/
def get? (members : Members α) (name : Text) : Option α :=
  (List.find? (fun m => m.1 = name) members).map (·.2)

/-- Gives the member its value, in its place if it is there and else at the end. -/
def set (name : Text) (a : α) : Members α → Members α
  | [] => [(name, a)]
  | m :: members => if m.1 = name then (name, a) :: members else m :: set name a members

end Members

/-- The order of two paths in a map. -/
abbrev Precedes {α : Type} (a b : Text × α) : Prop := a.1 < b.1

structure PathMap (α : Type) where
  entries : List (Text × α)
  sorted : entries.Pairwise Precedes

namespace PathMap

variable {α β : Type}

def insertEntry (path : Text) (a : α) : List (Text × α) → List (Text × α)
  | [] => [(path, a)]
  | e :: es =>
    if path < e.1 then (path, a) :: e :: es
    else if e.1 < path then e :: insertEntry path a es
    else (path, a) :: es

theorem mem_insertEntry {path : Text} {a : α} {es : List (Text × α)} {x : Text × α}
    (h : x ∈ insertEntry path a es) : x = (path, a) ∨ x ∈ es := by
  induction es with
  | nil => exact Or.inl (List.mem_singleton.mp h)
  | cons e es ih =>
    simp only [insertEntry] at h
    split at h
    · exact List.mem_cons.mp h
    · split at h
      · rcases List.mem_cons.mp h with rfl | h
        · exact Or.inr List.mem_cons_self
        · exact (ih h).imp_right (List.mem_cons_of_mem _)
      · exact (List.mem_cons.mp h).imp_right (List.mem_cons_of_mem _)

theorem eq_of_not_lt {s t : Text} (h : ¬ s < t) (g : ¬ t < s) : s = t :=
  List.le_antisymm (List.not_lt.mp g) (List.not_lt.mp h)

theorem pairwise_insertEntry (path : Text) (a : α) {es : List (Text × α)}
    (h : es.Pairwise Precedes) : (insertEntry path a es).Pairwise Precedes := by
  induction es with
  | nil => exact List.pairwise_singleton ..
  | cons e es ih =>
    have hHead := (List.pairwise_cons.mp h).1
    have hTail := (List.pairwise_cons.mp h).2
    simp only [insertEntry]
    split
    · rename_i hLt
      refine List.pairwise_cons.mpr ⟨fun x hx => ?_, h⟩
      rcases List.mem_cons.mp hx with rfl | hx
      · exact hLt
      · exact List.lt_trans hLt (hHead x hx)
    · rename_i hNotLt
      split
      · rename_i hLt
        refine List.pairwise_cons.mpr ⟨fun x hx => ?_, ih hTail⟩
        rcases mem_insertEntry hx with rfl | hx
        · exact hLt
        · exact hHead x hx
      · rename_i hNotGt
        have hEq : path = e.1 := eq_of_not_lt hNotLt hNotGt
        refine List.pairwise_cons.mpr ⟨fun x hx => ?_, hTail⟩
        show path < x.1
        exact hEq ▸ hHead x hx

def empty : PathMap α := ⟨[], List.Pairwise.nil⟩

instance : Inhabited (PathMap α) := ⟨empty⟩

def insert (m : PathMap α) (path : Text) (a : α) : PathMap α :=
  ⟨insertEntry path a m.entries, pairwise_insertEntry path a m.sorted⟩

def erase (m : PathMap α) (path : Text) : PathMap α :=
  ⟨m.entries.filter fun e => e.1 ≠ path, m.sorted.filter _⟩

def get? (m : PathMap α) (path : Text) : Option α :=
  (m.entries.find? fun e => e.1 = path).map (·.2)

def contains (m : PathMap α) (path : Text) : Bool := m.entries.any fun e => e.1 = path

def paths (m : PathMap α) : List Text := m.entries.map (·.1)

def values (m : PathMap α) : List α := m.entries.map (·.2)

/-- The map of a list of entries; of entries with one path the last counts. -/
def ofList (entries : List (Text × α)) : PathMap α :=
  entries.foldl (fun m e => m.insert e.1 e.2) empty

/-- Applies a function to every path and what it is mapped to. -/
def map (f : Text → α → β) (m : PathMap α) : PathMap β :=
  ⟨m.entries.map fun e => (e.1, f e.1 e.2), List.pairwise_map.mpr m.sorted⟩

end PathMap

/-- The texts of a repository's files by path. -/
abbrev Snapshot := PathMap Text

namespace Snapshot

/-- Moves a file to another path, over a file that stands there. Nothing happens when there is no
file to move. -/
def rename (s : Snapshot) (source destination : Text) : Snapshot :=
  match s.get? source with
  | none => s
  | some content => (s.erase source).insert destination content

end Snapshot

end DependencyMap
