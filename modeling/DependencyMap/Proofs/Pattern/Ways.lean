import DependencyMap.Proofs.Pattern.Taking

/-!
# The ways to read a pattern

`Pattern.ways` lists what a pattern can take of a text, in the order in which it is tried, by the
texts alone: what is taken, what is left and which parts are kept. These are the outcomes of the
pattern, one by one (`map_sight_outcomes`), so that two texts can be compared on which a pattern
takes runs of different lengths.
-/

namespace DependencyMap

/-- What a pattern takes of a text, what it leaves, and the parts that it keeps, the latest
first. -/
structure Way where
  taken : Text
  rest : Text
  parts : List (Slot × Text)

def Way.andThen (w v : Way) : Way := ⟨w.taken ++ v.taken, v.rest, v.parts ++ w.parts⟩

abbrev Way.stay (t : Text) : Way := ⟨[], t, []⟩

abbrev Way.step (c : CodePoint) (t : Text) : Way := ⟨[c], t, []⟩

/-- What is seen of a reading: how much is taken, what is left, and the parts. -/
def Reading.sight (r : Reading) : Nat × Text × List (Slot × Text) := (r.taken, r.rest, r.parts)

def Way.sight (r : Reading) (w : Way) : Nat × Text × List (Slot × Text) :=
  (r.taken + w.taken.length, w.rest, w.parts ++ r.parts)

namespace Pattern

def runWays (p : CodePoint → Bool) : Text → List Way
  | [] => [.stay []]
  | c :: t =>
    if p c then (runWays p t).map (Way.step c t).andThen ++ [.stay (c :: t)] else [.stay (c :: t)]

/-- The ways to read the pattern, in the order in which they are tried. -/
def ways : Pattern → Text → List Way
  | .nothing, t => [.stay t]
  | .text u, t => if u.isPrefixOf t then [⟨u, t.drop u.length, []⟩] else []
  | .one _, [] => []
  | .one p, c :: t => if p c then [.step c t] else []
  | .many p, t => runWays p t
  | .seq first second, t => (first.ways t).flatMap fun w => (second.ways w.rest).map w.andThen
  | .choice first second, t => first.ways t ++ second.ways t
  | .keep slot part, t => (part.ways t).map fun w => { w with parts := (slot, w.taken) :: w.parts }

variable {p : Pattern} {t : Text} {w : Way}

theorem runWays_cons_of_pos {q : CodePoint → Bool} {c : CodePoint} (h : q c) (t : Text) :
    runWays q (c :: t) = (runWays q t).map (Way.step c t).andThen ++ [.stay (c :: t)] := by
  rw [runWays, if_pos h]

theorem runWays_cons_of_neg {q : CodePoint → Bool} {c : CodePoint} (h : ¬ q c) (t : Text) :
    runWays q (c :: t) = [.stay (c :: t)] := by
  rw [runWays, if_neg h]

/-! ### Ways and what a pattern takes -/

theorem takes_of_mem_runWays {q : CodePoint → Bool} (h : w ∈ runWays q t) :
    (∀ c ∈ w.taken, q c) ∧ w.parts = [] ∧ t = w.taken ++ w.rest := by
  induction t generalizing w with
  | nil =>
    obtain rfl := List.mem_singleton.mp h
    exact ⟨List.forall_mem_nil _, rfl, rfl⟩
  | cons c t ih =>
    have hHere : w ∈ [Way.stay (c :: t)] →
        (∀ c ∈ w.taken, q c) ∧ w.parts = [] ∧ c :: t = w.taken ++ w.rest := by
      intro h
      obtain rfl := List.mem_singleton.mp h
      exact ⟨List.forall_mem_nil _, rfl, rfl⟩
    rw [runWays] at h
    split at h
    · rename_i hc
      rcases List.mem_append.mp h with h | h
      · obtain ⟨v, hv, rfl⟩ := List.mem_map.mp h
        obtain ⟨hTaken, hParts, rfl⟩ := ih hv
        refine ⟨List.forall_mem_cons.mpr ⟨hc, hTaken⟩, ?_, rfl⟩
        rw [Way.andThen, hParts, List.nil_append]
      · exact hHere h
    · exact hHere h

theorem takes_of_mem_ways (h : w ∈ p.ways t) :
    p.Takes w.taken w.parts ∧ t = w.taken ++ w.rest := by
  induction p generalizing t w with
  | nothing =>
    obtain rfl := List.mem_singleton.mp h
    exact ⟨⟨rfl, rfl⟩, rfl⟩
  | text u =>
    rw [ways] at h
    split at h
    · rename_i hPrefix
      obtain ⟨rest, rfl⟩ := List.isPrefixOf_iff_prefix.mp hPrefix
      obtain rfl := List.mem_singleton.mp h
      exact ⟨⟨rfl, rfl⟩, by rw [List.drop_left]⟩
    · cases h
  | one q =>
    cases t with
    | nil => cases h
    | cons c t =>
      rw [ways] at h
      split at h
      · rename_i hc
        obtain rfl := List.mem_singleton.mp h
        exact ⟨⟨⟨c, hc, rfl⟩, rfl⟩, rfl⟩
      · cases h
  | many q =>
    obtain ⟨hTaken, hParts, hText⟩ := takes_of_mem_runWays h
    exact ⟨⟨hTaken, hParts⟩, hText⟩
  | seq first second ih₁ ih₂ =>
    obtain ⟨u, hu, h⟩ := List.mem_flatMap.mp h
    obtain ⟨v, hv, rfl⟩ := List.mem_map.mp h
    obtain ⟨hFirst, rfl⟩ := ih₁ hu
    obtain ⟨hSecond, hRest⟩ := ih₂ hv
    refine ⟨⟨_, _, _, _, hFirst, hSecond, rfl, rfl⟩, ?_⟩
    rw [hRest, Way.andThen, List.append_assoc]
  | choice first second ih₁ ih₂ =>
    rcases List.mem_append.mp h with h | h
    · obtain ⟨hTakes, hText⟩ := ih₁ h
      exact ⟨Or.inl hTakes, hText⟩
    · obtain ⟨hTakes, hText⟩ := ih₂ h
      exact ⟨Or.inr hTakes, hText⟩
  | keep slot part ih =>
    obtain ⟨v, hv, rfl⟩ := List.mem_map.mp h
    obtain ⟨hTakes, hText⟩ := ih hv
    exact ⟨⟨_, hTakes, rfl⟩, hText⟩

/-! ### Ways and outcomes -/

theorem map_sight_runOutcomes (q : CodePoint → Bool) (base : Nat) (kept : List Kept) (t : Text) :
    (runOutcomes q base kept t).map Reading.sight =
      (runWays q t).map (Way.sight ⟨base, t, kept⟩) := by
  induction t generalizing base with
  | nil => rfl
  | cons c t ih =>
    rw [runOutcomes, runWays]
    split
    · rw [List.map_append, ih, List.map_append, List.map_map]
      congr 1
      refine List.map_congr_left fun w _ => ?_
      simp [Way.sight, Way.andThen, Reading.parts, Nat.add_assoc, Nat.add_comm 1]
    · rfl

/-- The outcomes of a pattern are the ways to read it. -/
theorem map_sight_outcomes (p : Pattern) (r : Reading) :
    (p.outcomes r).map Reading.sight = (p.ways r.rest).map (Way.sight r) := by
  induction p generalizing r with
  | nothing => rfl
  | text u =>
    rw [outcomes, ways]
    split <;> rfl
  | one q =>
    obtain ⟨taken, rest, kept⟩ := r
    cases rest with
    | nil => rfl
    | cons c rest =>
      simp only [outcomes, ways]
      split <;> rfl
  | many q => exact map_sight_runOutcomes q r.taken r.kept r.rest
  | seq first second ih₁ ih₂ =>
    -- what follows an outcome depends only on what is seen of it
    let next (s : Nat × Text × List (Slot × Text)) : List (Nat × Text × List (Slot × Text)) :=
      (second.ways s.2.1).map fun v => (s.1 + v.taken.length, v.rest, v.parts ++ s.2.2)
    have hNext (m : Reading) : (second.outcomes m).map Reading.sight = next m.sight := ih₂ m
    rw [outcomes, ways, List.map_flatMap, List.map_flatMap]
    calc (first.outcomes r).flatMap (fun m => (second.outcomes m).map Reading.sight)
        = ((first.outcomes r).map Reading.sight).flatMap next := by
          rw [List.flatMap_map]
          exact List.flatMap_congr fun m _ => hNext m
      _ = (first.ways r.rest).flatMap fun w => next (w.sight r) := by
          rw [ih₁, List.flatMap_map]
      _ = (first.ways r.rest).flatMap fun w =>
            ((second.ways w.rest).map w.andThen).map (Way.sight r) := by
          refine List.flatMap_congr fun w _ => ?_
          rw [List.map_map]
          refine List.map_congr_left fun v _ => ?_
          simp [Way.sight, Way.andThen, Nat.add_assoc]
  | choice first second ih₁ ih₂ =>
    rw [outcomes, ways, List.map_append, List.map_append, ih₁, ih₂]
  | keep slot part ih =>
    let keepPart (s : Nat × Text × List (Slot × Text)) : Nat × Text × List (Slot × Text) :=
      (s.1, s.2.1, (slot, r.rest.take (s.1 - r.taken)) :: s.2.2)
    calc ((keep slot part).outcomes r).map Reading.sight
        = ((part.outcomes r).map Reading.sight).map keepPart := by
          rw [outcomes, List.map_map, List.map_map]
          rfl
      _ = ((part.ways r.rest).map (Way.sight r)).map keepPart := by rw [ih]
      _ = ((keep slot part).ways r.rest).map (Way.sight r) := by
          rw [ways, List.map_map, List.map_map]
          refine List.map_congr_left fun w hw => ?_
          have hTaken : r.rest.take w.taken.length = w.taken := by
            conv_lhs => rw [(takes_of_mem_ways hw).2]
            exact List.take_left
          simp [keepPart, Way.sight, hTaken]

/-! ### Readings -/

theorem map_sight_read? (p : Pattern) (t : Text) :
    (p.read? t).map Reading.sight = (p.ways t).head?.map (Way.sight (.start t)) := by
  rw [read?_eq_head?, ← List.head?_map, map_sight_outcomes, List.head?_map]
  rfl

theorem read?_eq_none_of_head?_ways (h : (p.ways t).head? = none) : p.read? t = none := by
  rw [← Option.map_eq_none_iff, map_sight_read?, h, Option.map_none]

/-- The first of the ways is read. -/
theorem exists_read?_of_head?_ways (h : (p.ways t).head? = some w) :
    ∃ r, p.read? t = some r ∧ r.taken = w.taken.length ∧ r.parts = w.parts := by
  have hSight := map_sight_read? p t
  rw [h, Option.map_some, Option.map_eq_some_iff] at hSight
  obtain ⟨r, hRead, hSame⟩ := hSight
  obtain ⟨hTaken, hSame⟩ := Prod.mk.inj hSame
  refine ⟨r, hRead, hTaken.trans (Nat.zero_add _), ?_⟩
  exact (Prod.mk.inj hSame).2.trans (List.append_nil _)

end Pattern

end DependencyMap
