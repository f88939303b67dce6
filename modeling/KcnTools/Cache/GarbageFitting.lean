import KcnTools.Cache.GarbageCollection

/-!
Whether a collection keeps what still fits. The third pass counts the entries in use among what
it keeps, so one of them can use up the room of an older entry.
-/

namespace KcnTools.Cache

def KeepsWhatFits (optCacheSize : Nat) (entries : List MarkedEntry) : Prop :=
  ∀ collected, garbageCollection false optCacheSize (totalSize entries) entries = some collected →
    ∀ entry ∈ collected.deleted, gcCacheSize optCacheSize < entry.1.dataSize + unusedSize collected.kept

section Reached

/-- The entries behind the newest ones whose unused sizes fit together: those that pass 2 reaches,
and the size in front of them. -/
def reached (gcSize newer : Nat) : List MarkedEntry → Nat × List MarkedEntry
  | [] => (newer, [])
  | entry :: older =>
      let size := if entry.1.used then 0 else entry.1.dataSize
      if newer + size ≤ gcSize then reached gcSize (newer + size) older else (newer, entry :: older)

theorem reached_append {gcSize new : Nat} {newest range : List MarkedEntry}
    (fits : new + unusedSize newest ≤ gcSize)
    (large : ∀ entry older, range = entry :: older → gcSize < new + unusedSize newest + unusedSize [entry]) :
    reached gcSize new (newest ++ range) = (new + unusedSize newest, range) := by
  induction newest generalizing new with
  | nil =>
      cases range with
      | nil => rfl
      | cons entry older =>
          have tooLarge := large entry older rfl
          rw [unusedSize_cons, unusedSize_nil] at tooLarge
          rw [List.nil_append, reached]
          exact if_neg (by omega)
  | cons entry newest ih =>
      rw [unusedSize_cons, ← Nat.add_assoc] at fits large
      rw [List.cons_append, reached, unusedSize_cons, ← Nat.add_assoc]
      rw [if_pos (by omega)]
      exact ih fits large

/-- Pass 2 stops where the newer entries fit together. -/
theorem Stopped.reached_eq {gcSize new : Nat} {entries newer range : List MarkedEntry}
    (stopped : Stopped false gcSize entries.reverse new newer range) :
    ∃ marked, reached gcSize 0 entries = (new, marked) ∧ range = marked.map freshMark := by
  obtain ⟨visited, split, marks, early⟩ := stopped.split
  have whole_eq : entries = newer.reverse ++ visited.reverse := by
    rw [← List.reverse_append, ← split, List.reverse_reverse]
  have low : unusedSize newer ≤ gcSize := by
    by_cases none : newer = []
    · rw [none]
      exact Nat.zero_le _
    · rw [← stopped.exact]
      exact (stopped.enough none).2
  refine ⟨visited.reverse, ?_, by rw [marks, List.map_reverse]⟩
  rw [whole_eq, stopped.exact, reached_append, unusedSize_reverse, Nat.zero_add]
  · rw [unusedSize_reverse, Nat.zero_add]
    exact low
  · intro entry older shape
    have turned : visited = older.reverse ++ [entry] := by
      rw [← List.reverse_reverse visited, shape, List.reverse_cons]
    have large := early older.reverse entry [] turned rfl
    rw [List.singleton_append, unusedSize_cons] at large
    rw [unusedSize_reverse, unusedSize_cons, unusedSize_nil]
    omega

end Reached

section Counted

/-- What pass 3 adds for a part of its range: the sizes of entries in use, and those of others. -/
def counted (gcSize new : Nat) : List MarkedEntry → Nat × Nat
  | [] => (0, 0)
  | entry :: older =>
      if gcSize < new + entry.1.dataSize then counted gcSize new older
      else
        let later := counted gcSize (new + entry.1.dataSize) older
        if entry.1.used then (entry.1.dataSize + later.1, later.2) else (later.1, entry.1.dataSize + later.2)

/-- An unused entry of the range does not fit any more for the used ones that were counted in front of it,
although there is room for it and for all that is unused and kept. -/
def PushesOut (gcSize new : Nat) (range : List MarkedEntry) : Prop :=
  ∃ front entry back, range = front ++ entry :: back ∧ entry.1.used = false ∧
    let before := counted gcSize new front
    let behind := counted gcSize (new + before.1 + before.2) back
    gcSize < new + before.1 + before.2 + entry.1.dataSize ∧ new + before.2 + entry.1.dataSize + behind.2 ≤ gcSize

variable {gcSize new : Nat}

theorem counted_map (range : List MarkedEntry) : counted gcSize new (range.map freshMark) = counted gcSize new range := by
  induction range generalizing new with
  | nil => rfl
  | cons entry older ih => simp only [List.map_cons, counted, ih, freshMark]

theorem kept_counted {range : List MarkedEntry} (fresh : Fresh range) :
    unusedSize (destroyMarked (unmarkFitting gcSize new range).2).kept = (counted gcSize new range).2 := by
  induction range generalizing new with
  | nil => rfl
  | cons entry older ih =>
      have mark := fresh entry List.mem_cons_self
      have rest (new : Nat) : unusedSize (destroyMarked (unmarkFitting gcSize new older).2).kept =
          (counted gcSize new older).2 := ih fresh.tail
      simp only [destroyMarked] at rest
      rw [unmarkFitting, counted]
      split
      · simp only [destroyMarked, List.filter_cons]
        cases used : entry.1.used with
        | true =>
            rw [used] at mark
            rw [mark, if_pos (by decide), unusedSize_cons, if_pos used, Nat.zero_add]
            exact rest new
        | false =>
            rw [used] at mark
            rw [mark, if_neg (by decide)]
            exact rest new
      · simp only [destroyMarked, List.filter_cons]
        rw [if_pos (by decide), unusedSize_cons, rest]
        dsimp only
        split
        · rw [Nat.zero_add]
        · rfl

/-- An entry of a list is the first one, or it stands behind it. -/
theorem exists_split_cons {α : Type} {first entry : α} {older : List α} (post : List α → Prop) :
    (∃ front back, first :: older = front ++ entry :: back ∧ post front) ↔
      (entry = first ∧ post []) ∨ ∃ front back, older = front ++ entry :: back ∧ post (first :: front) := by
  constructor
  · rintro ⟨front, back, shape, holds⟩
    cases front with
    | nil =>
        obtain ⟨rfl, -⟩ := List.cons.inj shape
        exact .inl ⟨rfl, holds⟩
    | cons other front =>
        obtain ⟨rfl, parts⟩ := List.cons.inj shape
        exact .inr ⟨front, back, parts, holds⟩
  · rintro (⟨rfl, holds⟩ | ⟨front, back, rfl, holds⟩)
    · exact ⟨[], older, rfl, holds⟩
    · exact ⟨first :: front, back, rfl, holds⟩

/-- The entries that stay marked: unused ones that did not fit when pass 3 came to them. -/
theorem deleted_iff {range : List MarkedEntry} (fresh : Fresh range) (entry : MarkedEntry) :
    entry ∈ (destroyMarked (unmarkFitting gcSize new range).2).deleted ↔
      ∃ front back, range = front ++ entry :: back ∧ entry.1.used = false ∧
        gcSize < new + (counted gcSize new front).1 + (counted gcSize new front).2 + entry.1.dataSize := by
  induction range generalizing new with
  | nil =>
      refine iff_of_false List.not_mem_nil ?_
      rintro ⟨front, back, shape, -⟩
      cases front <;> cases shape
  | cons first older ih =>
      have mark := fresh first List.mem_cons_self
      have rest (new : Nat) := @ih new fresh.tail
      simp only [destroyMarked] at rest
      rw [exists_split_cons fun front => entry.1.used = false ∧
        gcSize < new + (counted gcSize new front).1 + (counted gcSize new front).2 + entry.1.dataSize, unmarkFitting]
      split
      next large =>
        simp only [counted, if_pos large, Nat.add_zero, destroyMarked, List.filter_cons]
        rw [← rest new]
        cases used : first.1.used with
        | true =>
            rw [used] at mark
            rw [mark, if_neg (by decide)]
            refine ⟨.inr, fun found => found.resolve_left ?_⟩
            rintro ⟨rfl, unused, -⟩
            rw [used] at unused
            cases unused
        | false =>
            rw [used] at mark
            rw [mark, if_pos (by decide), List.mem_cons]
            refine or_congr ⟨?_, ?_⟩ Iff.rfl
            · rintro rfl
              exact ⟨by rw [← mark], used, large⟩
            · rintro ⟨rfl, -, -⟩
              rw [← mark]
      next small =>
        simp only [counted, if_neg small, Nat.add_zero, destroyMarked, List.filter_cons]
        rw [if_neg (by decide), rest]
        constructor
        · rintro ⟨front, back, shape, unused, tooLarge⟩
          refine .inr ⟨front, back, shape, unused, ?_⟩
          split <;> dsimp only <;> omega
        · rintro (⟨rfl, -, large⟩ | ⟨front, back, shape, unused, tooLarge⟩)
          · exact absurd large small
          · refine ⟨front, back, shape, unused, ?_⟩
            split at tooLarge <;> dsimp only at tooLarge <;> omega

theorem counted_append (front : List MarkedEntry) {entry : MarkedEntry} (back : List MarkedEntry)
    (large : gcSize < new + (counted gcSize new front).1 + (counted gcSize new front).2 + entry.1.dataSize) :
    (counted gcSize new (front ++ entry :: back)).2 = (counted gcSize new front).2 +
      (counted gcSize (new + (counted gcSize new front).1 + (counted gcSize new front).2) back).2 := by
  induction front generalizing new with
  | nil =>
      simp only [counted, Nat.add_zero, Nat.zero_add] at large ⊢
      rw [List.nil_append, counted, if_pos large]
  | cons first front ih =>
      rw [List.cons_append]
      simp only [counted] at large ⊢
      split
      next skipped =>
        rw [if_pos skipped] at large
        exact ih large
      next small =>
        rw [if_neg small] at large
        have later := @ih (new + first.1.dataSize)
        split at large
        next used =>
          simp only [if_pos used] at large ⊢
          rw [later (by omega), ← Nat.add_assoc new]
        next unused =>
          simp only [if_neg unused] at large ⊢
          rw [later (by omega), Nat.add_assoc first.1.dataSize]
          congr 4
          omega

/-- Pass 3 loses an entry that still fits exactly where a used one pushes it out. -/
theorem pushesOut_iff {range : List MarkedEntry} (fresh : Fresh range) :
    PushesOut gcSize new range ↔ ∃ entry ∈ (destroyMarked (unmarkFitting gcSize new range).2).deleted,
      entry.1.dataSize + (new + unusedSize (destroyMarked (unmarkFitting gcSize new range).2).kept) ≤ gcSize := by
  rw [kept_counted fresh]
  constructor
  · rintro ⟨front, entry, back, shape, unused, large, room⟩
    refine ⟨entry, (deleted_iff fresh entry).mpr ⟨front, back, shape, unused, large⟩, ?_⟩
    rw [shape, counted_append front back large]
    omega
  · rintro ⟨entry, deleted, room⟩
    obtain ⟨front, back, shape, unused, large⟩ := (deleted_iff fresh entry).mp deleted
    rw [shape, counted_append front back large] at room
    exact ⟨front, entry, back, shape, unused, large, by omega⟩

end Counted

theorem pushesOut_fresh {gcSize new : Nat} (range : List MarkedEntry) :
    PushesOut gcSize new (range.map freshMark) ↔ PushesOut gcSize new range := by
  constructor
  · rintro ⟨front, entry, back, shape, unused, rest⟩
    obtain ⟨first, others, parts, sameFirst, sameOthers⟩ := List.map_eq_append_iff.mp shape
    obtain ⟨other, later, split, same, sameLater⟩ := List.map_eq_cons_iff.mp sameOthers
    refine ⟨first, other, later, by rw [parts, split], by rw [← unused, ← same]; rfl, ?_⟩
    simp only [← sameFirst, ← sameLater, counted_map, ← same] at rest
    exact rest
  · rintro ⟨front, entry, back, rfl, unused, rest⟩
    refine ⟨front.map freshMark, freshMark entry, back.map freshMark, by simp, unused, ?_⟩
    simp only [counted_map]
    exact rest

/-- A collection keeps what fits unless it gets as far as pass 3 and a used entry pushes another one out there. -/
theorem keepsWhatFits_iff (optCacheSize : Nat) (entries : List MarkedEntry) :
    KeepsWhatFits optCacheSize entries ↔
      unusedSize entries ≤ optCacheSize ∨
        ¬ PushesOut (gcCacheSize optCacheSize) (reached (gcCacheSize optCacheSize) 0 entries).1
          (reached (gcCacheSize optCacheSize) 0 entries).2 := by
  rcases garbageCollection_cases false optCacheSize entries with
    ⟨ran, _, small⟩ | ⟨new, newer, range, stopped, large, ran⟩
  · refine iff_of_true ?_ (.inl (small rfl))
    intro collected same entry member
    rw [ran, Option.some.injEq] at same
    rw [← same] at member
    cases member
  · obtain ⟨marked, reach, marks⟩ := stopped.reached_eq
    have fresh : Fresh range := by
      obtain ⟨visited, _, same, _⟩ := stopped.split
      exact same ▸ fresh_map visited
    have tooLarge := large rfl
    rw [reach, ← pushesOut_fresh, ← marks, pushesOut_iff fresh, KeepsWhatFits]
    simp only [ran, Option.some.injEq, forall_eq', finalRange, Bool.false_eq_true, if_false, unusedSize_append,
      unusedSize_reverse, ← stopped.exact, not_exists, not_and, Nat.not_le, show ¬ unusedSize entries ≤ optCacheSize by
        omega, false_or]

def sizedEntry (size : Nat) (used : Bool) : MarkedEntry := (⟨size, used, false⟩, false)

/-- Newest first 101 bytes, 90 bytes in use and 1 byte, with room for 100 and 90 to aim at: both
unused entries go, although the small one fits. -/
theorem garbageCollection_crowded :
    garbageCollection false 100 192 [sizedEntry 101 false, sizedEntry 90 true, sizedEntry 1 false] =
      some ⟨[sizedEntry 90 true], [(⟨101, false, false⟩, true), (⟨1, false, false⟩, true)]⟩ ∧
    ¬ KeepsWhatFits 100 [sizedEntry 101 false, sizedEntry 90 true, sizedEntry 1 false] := by
  have ran : garbageCollection false 100 192 [sizedEntry 101 false, sizedEntry 90 true, sizedEntry 1 false] =
      some ⟨[sizedEntry 90 true], [(⟨101, false, false⟩, true), (⟨1, false, false⟩, true)]⟩ := by decide +kernel
  refine ⟨ran, fun keeps => ?_⟩
  have exceeds := keeps _ ran (⟨1, false, false⟩, true) (by simp)
  exact absurd exceeds (by decide +kernel)

end KcnTools.Cache
