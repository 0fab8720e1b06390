import DependencyMap.PathMap
import Mathlib.Data.List.Nodup

/-!
# Looking up paths

`get?_eq_some_iff` is the one law of looking up: a path is mapped to what stands beside it in the
entries. That this is unique comes from the order of the entries, which keeps paths distinct
(`nodup_paths`). Insertion changes the answer at one path (`get?_insert`), removal takes it away
(`get?_erase`), and a map of values changes every answer and no path (`get?_map`). Two maps that
answer alike are equal (`ext_get?`), so that a map does not know in which order it was filled
(`ofList_eq_of_perm`).
-/

namespace DependencyMap

namespace PathMap

variable {α β : Type}

theorem nodup_paths (m : PathMap α) : (m.entries.map (·.1)).Nodup := by
  refine List.pairwise_map.mpr (m.sorted.imp ?_)
  intro a b h he
  rw [Precedes, he] at h
  exact List.lt_irrefl _ h

theorem eq_of_mem_entries {m : PathMap α} {p : Text} {a b : α} (ha : (p, a) ∈ m.entries)
    (hb : (p, b) ∈ m.entries) : a = b :=
  congrArg Prod.snd (List.inj_on_of_nodup_map m.nodup_paths ha hb rfl)

theorem get?_eq_some_iff {m : PathMap α} {p : Text} {a : α} :
    m.get? p = some a ↔ (p, a) ∈ m.entries := by
  rw [get?, Option.map_eq_some_iff]
  constructor
  · rintro ⟨⟨q, b⟩, hFound, rfl⟩
    have hPath : q = p := by simpa using List.find?_some hFound
    exact hPath ▸ List.mem_of_find?_eq_some hFound
  · intro h
    cases hFound : m.entries.find? fun e => e.1 = p with
    | none => exact absurd (List.find?_eq_none.mp hFound (p, a) h) (by simp)
    | some e =>
      obtain ⟨q, b⟩ := e
      have hPath : q = p := by simpa using List.find?_some hFound
      subst hPath
      exact ⟨_, rfl, eq_of_mem_entries (List.mem_of_find?_eq_some hFound) h⟩

theorem contains_iff {m : PathMap α} {p : Text} : m.contains p ↔ ∃ a, (p, a) ∈ m.entries := by
  rw [contains, List.any_eq_true]
  constructor
  · rintro ⟨⟨q, a⟩, hMem, hPath⟩
    have hPath : q = p := by simpa using hPath
    exact ⟨a, hPath ▸ hMem⟩
  · rintro ⟨a, h⟩
    exact ⟨_, h, by simp⟩

theorem contains_iff_get? {m : PathMap α} {p : Text} : m.contains p ↔ ∃ a, m.get? p = some a := by
  simp only [contains_iff, get?_eq_some_iff]

@[simp] theorem get?_empty (p : Text) : (empty : PathMap α).get? p = none := rfl

theorem mem_insertEntry_self (p : Text) (a : α) (es : List (Text × α)) :
    (p, a) ∈ insertEntry p a es := by
  induction es with
  | nil => exact List.mem_singleton.mpr rfl
  | cons e es ih =>
    simp only [insertEntry]
    split
    · exact List.mem_cons_self
    · split
      · exact List.mem_cons_of_mem _ ih
      · exact List.mem_cons_self

/-- Insertion keeps the entries at other paths. -/
theorem mem_insertEntry_of_ne {p : Text} {a : α} {es : List (Text × α)} {x : Text × α}
    (h : x ∈ es) (hne : x.1 ≠ p) : x ∈ insertEntry p a es := by
  induction es with
  | nil => exact absurd h List.not_mem_nil
  | cons e es ih =>
    simp only [insertEntry]
    split
    · exact List.mem_cons_of_mem _ h
    · rename_i hNotLt
      rcases List.mem_cons.mp h with rfl | h
      · split
        · exact List.mem_cons_self
        · rename_i hNotGt
          exact absurd (eq_of_not_lt hNotLt hNotGt).symm hne
      · split
        · exact List.mem_cons_of_mem _ (ih h)
        · exact List.mem_cons_of_mem _ h

theorem get?_insert (m : PathMap α) (p q : Text) (a : α) :
    (m.insert p a).get? q = if q = p then some a else m.get? q := by
  by_cases h : q = p
  · subst h
    rw [if_pos rfl]
    exact get?_eq_some_iff.mpr (mem_insertEntry_self q a m.entries)
  · rw [if_neg h]
    refine Option.ext fun b => ?_
    rw [get?_eq_some_iff, get?_eq_some_iff]
    constructor
    · intro hMem
      rcases mem_insertEntry hMem with he | hMem
      · exact absurd (congrArg Prod.fst he) h
      · exact hMem
    · exact fun hMem => mem_insertEntry_of_ne hMem h

theorem mem_entries_map {f : Text → α → β} {m : PathMap α} {p : Text} {b : β} :
    (p, b) ∈ (m.map f).entries ↔ ∃ a, (p, a) ∈ m.entries ∧ f p a = b := by
  simp only [map, List.mem_map, Prod.mk.injEq]
  constructor
  · rintro ⟨⟨q, a⟩, hMem, rfl, rfl⟩
    exact ⟨a, hMem, rfl⟩
  · rintro ⟨a, hMem, rfl⟩
    exact ⟨_, hMem, rfl, rfl⟩

theorem get?_map (f : Text → α → β) (m : PathMap α) (p : Text) :
    (m.map f).get? p = (m.get? p).map (f p) := by
  refine Option.ext fun b => ?_
  rw [get?_eq_some_iff, mem_entries_map, Option.map_eq_some_iff]
  simp only [get?_eq_some_iff]

/-- A map is determined by what it answers. -/
theorem ext_get? {m m' : PathMap α} (h : ∀ p, m.get? p = m'.get? p) : m = m' := by
  have hMem : ∀ e : Text × α, e ∈ m.entries ↔ e ∈ m'.entries := by
    rintro ⟨p, a⟩
    rw [← get?_eq_some_iff, ← get?_eq_some_iff, h]
  have hPerm : m.entries.Perm m'.entries :=
    (List.perm_ext_iff_of_nodup m.nodup_paths.of_map m'.nodup_paths.of_map).mpr hMem
  have hEntries : m.entries = m'.entries := by
    refine List.Perm.eq_of_pairwise ?_ m.sorted m'.sorted hPerm
    intro a b _ _ hab hba
    exact absurd hba (List.lt_asymm hab)
  cases m
  cases m'
  cases hEntries
  rfl

theorem not_contains_iff_get? {m : PathMap α} {p : Text} : ¬ m.contains p ↔ m.get? p = none := by
  rw [contains_iff_get?, Option.eq_none_iff_forall_ne_some, not_exists]

theorem contains_insert {m : PathMap α} {p q : Text} {a : α} :
    (m.insert p a).contains q ↔ q = p ∨ m.contains q := by
  rw [contains_iff_get?, get?_insert, contains_iff_get?]
  by_cases h : q = p
  · simp [h]
  · simp [h]

/-- A value over an old one leaves the paths as they are. -/
theorem contains_insert_of_contains {m : PathMap α} {p : Text} (a : α) (hp : m.contains p)
    (q : Text) : (m.insert p a).contains q = m.contains q := by
  rw [Bool.eq_iff_iff, contains_insert]
  constructor
  · rintro (rfl | hq)
    · exact hp
    · exact hq
  · exact Or.inr

theorem get?_erase (m : PathMap α) (p q : Text) :
    (m.erase p).get? q = if q = p then none else m.get? q := by
  refine Option.ext fun b => ?_
  rw [get?_eq_some_iff, erase, List.mem_filter]
  by_cases h : q = p
  · simp [h]
  · simp [h, get?_eq_some_iff]

theorem erase_of_not_contains {m : PathMap α} {p : Text} (h : ¬ m.contains p) : m.erase p = m := by
  refine ext_get? fun q => ?_
  rw [get?_erase]
  split
  · rename_i hq
    rw [hq, not_contains_iff_get?.mp h]
  · rfl

theorem insert_of_get?_eq_some {m : PathMap α} {p : Text} {a : α} (h : m.get? p = some a) :
    m.insert p a = m := by
  refine ext_get? fun q => ?_
  rw [get?_insert]
  split
  · rename_i hq
    rw [hq, h]
  · rfl

/-- What was taken away can be put back. -/
theorem insert_erase_of_get?_eq_some {m : PathMap α} {p : Text} {a : α} (h : m.get? p = some a) :
    (m.erase p).insert p a = m := by
  refine ext_get? fun q => ?_
  rw [get?_insert, get?_erase]
  split
  · rename_i hq
    rw [hq, h]
  · rfl

/-- The entries of a map after an insertion are the new one and the old ones at other paths. -/
theorem perm_entries_insert (m : PathMap α) (p : Text) (a : α) :
    (m.insert p a).entries.Perm ((p, a) :: (m.erase p).entries) := by
  have hNew : ((p, a) :: (m.erase p).entries).Nodup := by
    refine List.nodup_cons.mpr ⟨?_, (m.erase p).nodup_paths.of_map⟩
    simp [erase]
  refine (List.perm_ext_iff_of_nodup (m.insert p a).nodup_paths.of_map hNew).mpr ?_
  rintro ⟨q, b⟩
  rw [← get?_eq_some_iff, get?_insert, List.mem_cons, ← get?_eq_some_iff, get?_erase]
  by_cases h : q = p
  · simp [h, eq_comm]
  · simp [h]

theorem countP_entries_insert (m : PathMap α) (p : Text) (a : α) (f : Text × α → Bool) :
    (m.insert p a).entries.countP f = (m.erase p).entries.countP f + if f (p, a) then 1 else 0 := by
  rw [(perm_entries_insert m p a).countP_eq, List.countP_cons]

theorem get?_foldl_insert {es : List (Text × α)} (h : (es.map (·.1)).Nodup) (m : PathMap α)
    {p : Text} {a : α} :
    (es.foldl (fun m e => m.insert e.1 e.2) m).get? p = some a ↔
      (p, a) ∈ es ∨ p ∉ es.map (·.1) ∧ m.get? p = some a := by
  induction es generalizing m with
  | nil => simp
  | cons e es ih =>
    obtain ⟨hNew, hRest⟩ := List.nodup_cons.mp h
    rw [List.foldl_cons, ih hRest, get?_insert, List.mem_cons, List.map_cons, List.mem_cons]
    obtain ⟨q, b⟩ := e
    by_cases hq : p = q
    · subst hq
      have hAbsent : (p, a) ∉ es := fun hMem => hNew (List.mem_map_of_mem (f := (·.1)) hMem)
      simp [hAbsent, hNew, eq_comm]
    · simp [hq]

/-- The map of entries with distinct paths holds just these. -/
theorem get?_ofList {es : List (Text × α)} (h : (es.map (·.1)).Nodup) {p : Text} {a : α} :
    (ofList es).get? p = some a ↔ (p, a) ∈ es := by
  rw [ofList, get?_foldl_insert h]
  simp

theorem find?_eq_get?_ofList {es : List (Text × α)} (h : (es.map (·.1)).Nodup) (p : Text) :
    (es.find? fun e => e.1 = p) = ((ofList es).get? p).map fun a => (p, a) := by
  cases hFound : es.find? fun e => e.1 = p with
  | none =>
    have hNone : (ofList es).get? p = none := by
      refine Option.eq_none_iff_forall_ne_some.mpr fun a ha => ?_
      exact List.find?_eq_none.mp hFound _ ((get?_ofList h).mp ha) (by simp)
    rw [hNone, Option.map_none]
  | some e =>
    obtain ⟨q, a⟩ := e
    have hPath : q = p := by simpa using List.find?_some hFound
    subst hPath
    rw [(get?_ofList h).mpr (List.mem_of_find?_eq_some hFound), Option.map_some]

/-- A map is filled with its own entries. -/
@[simp] theorem ofList_entries (m : PathMap α) : ofList m.entries = m := by
  refine ext_get? fun p => Option.ext fun a => ?_
  rw [get?_ofList m.nodup_paths, get?_eq_some_iff]

theorem perm_entries_ofList {es : List (Text × α)} (h : (es.map (·.1)).Nodup) :
    (ofList es).entries.Perm es := by
  refine (List.perm_ext_iff_of_nodup (ofList es).nodup_paths.of_map h.of_map).mpr ?_
  rintro ⟨p, a⟩
  rw [← get?_eq_some_iff, get?_ofList h]

/-- The order in which a map is filled does not matter. -/
theorem ofList_eq_of_perm {es es' : List (Text × α)} (h : (es.map (·.1)).Nodup)
    (hPerm : es.Perm es') : ofList es = ofList es' := by
  have h' : (es'.map (·.1)).Nodup := (hPerm.map _).nodup_iff.mp h
  refine ext_get? fun p => Option.ext fun a => ?_
  rw [get?_ofList h, get?_ofList h', hPerm.mem_iff]

end PathMap

end DependencyMap
