import Mathlib

/-!
`garbage_collection` of `cache/cache.c` with its four passes. The list has the newest entry
first; `none` is the run in which one of the assertions about sizes fails.
-/

namespace KcnTools.Cache

/-- An entry with its size and the two ways in which it can be in use -/
structure StoredEntry where
  dataSize : Nat
  objectUsed : Bool
  entryUsed : Bool
  deriving DecidableEq

def StoredEntry.used (entry : StoredEntry) : Bool := entry.objectUsed || entry.entryUsed

abbrev MarkedEntry := StoredEntry × Bool

def memoryCacheGcPercent : Nat := 90

def gcCacheSize (optCacheSize : Nat) : Nat := optCacheSize * memoryCacheGcPercent % 2 ^ 64 / 100

def subtractSize (total size : Nat) : Option Nat := if size ≤ total then some (total - size) else none

def weedOutUsed (old new : Nat) : List MarkedEntry → Option (Nat × Nat)
  | [] => some (old, new)
  | (entry, _) :: rest =>
      if entry.used then (subtractSize new entry.dataSize).bind fun new => weedOutUsed (old + entry.dataSize) new rest
      else weedOutUsed (old + entry.dataSize) new rest

/-- Pass 2, from the oldest entry on: what is left of `new_cache_size`, the entries that were not
reached, and those that were, newest first. -/
def markTargets (whole : Bool) (gcSize new : Nat) (range : List MarkedEntry) :
    List MarkedEntry → Option (Nat × List MarkedEntry × List MarkedEntry)
  | [] => some (new, [], range)
  | (entry, mark) :: newer =>
      if !whole && new ≤ gcSize then some (new, (entry, mark) :: newer, range)
      else if entry.used then markTargets whole gcSize new ((entry, false) :: range) newer
      else
        (subtractSize new entry.dataSize).bind fun new =>
          markTargets whole gcSize new ((entry, true) :: range) newer

/-- Pass 3, back from where pass 2 stopped: entries that still fit are unmarked. -/
def unmarkFitting (gcSize new : Nat) : List MarkedEntry → Nat × List MarkedEntry
  | [] => (new, [])
  | (entry, mark) :: older =>
      if new + entry.dataSize > gcSize then
        let (new, rest) := unmarkFitting gcSize new older
        (new, (entry, mark) :: rest)
      else
        let (new, rest) := unmarkFitting gcSize (new + entry.dataSize) older
        (new, (entry, false) :: rest)

structure Collected where
  kept : List MarkedEntry
  deleted : List MarkedEntry
  deriving DecidableEq

def destroyMarked (range : List MarkedEntry) : Collected :=
  ⟨range.filter fun entry => !entry.2, range.filter fun entry => entry.2⟩

def garbageCollection (whole : Bool) (optCacheSize cacheSize : Nat) (entries : List MarkedEntry) :
    Option Collected := do
  if !whole && cacheSize ≤ optCacheSize then return ⟨entries, []⟩
  let (old, new) ← weedOutUsed 0 cacheSize entries
  if old ≠ cacheSize then none
  if !whole && new ≤ optCacheSize then return ⟨entries, []⟩
  let (new, newer, range) ← markTargets whole (gcCacheSize optCacheSize) new [] entries.reverse
  if newer = [] ∧ new ≠ 0 then none
  if range = [] then return ⟨entries, []⟩
  let range := if whole then range else (unmarkFitting (gcCacheSize optCacheSize) new range).2
  let collected := destroyMarked range
  return ⟨newer.reverse ++ collected.kept, collected.deleted⟩

section Sizes

def totalSize (entries : List MarkedEntry) : Nat := (entries.map fun entry => entry.1.dataSize).sum

def unusedSize (entries : List MarkedEntry) : Nat :=
  ((entries.filter fun entry => !entry.1.used).map fun entry => entry.1.dataSize).sum

@[simp] theorem unusedSize_nil : unusedSize [] = 0 := rfl

theorem unusedSize_cons (entry : MarkedEntry) (rest : List MarkedEntry) :
    unusedSize (entry :: rest) = (if entry.1.used then 0 else entry.1.dataSize) + unusedSize rest := by
  rw [unusedSize, List.filter_cons]
  cases entry.1.used with
  | true => simp [unusedSize]
  | false => simp [unusedSize]

@[simp] theorem unusedSize_append (front back : List MarkedEntry) :
    unusedSize (front ++ back) = unusedSize front + unusedSize back := by
  simp only [unusedSize, List.filter_append, List.map_append, List.sum_append]

@[simp] theorem unusedSize_reverse (entries : List MarkedEntry) : unusedSize entries.reverse = unusedSize entries := by
  simp only [unusedSize, List.filter_reverse, List.map_reverse, List.sum_reverse]

theorem totalSize_cons (entry : MarkedEntry) (rest : List MarkedEntry) :
    totalSize (entry :: rest) = entry.1.dataSize + totalSize rest := rfl

theorem unusedSize_le (entries : List MarkedEntry) : unusedSize entries ≤ totalSize entries := by
  induction entries with
  | nil => exact Nat.le_refl 0
  | cons entry rest ih =>
      rw [unusedSize_cons, totalSize_cons]
      split <;> omega

theorem weedOutUsed_eq (old new : Nat) (entries : List MarkedEntry) (enough : totalSize entries ≤ new) :
    weedOutUsed old new entries =
      some (old + totalSize entries, new - (totalSize entries - unusedSize entries)) := by
  induction entries generalizing old new with
  | nil => rfl
  | cons entry rest ih =>
      have part := unusedSize_le rest
      rw [totalSize_cons] at enough
      rw [weedOutUsed, totalSize_cons, unusedSize_cons]
      cases entry.1.used with
      | true =>
          rw [if_pos rfl, if_pos rfl, subtractSize, if_pos (by omega), Option.bind_some, ih _ _ (by omega)]
          congr 2 <;> omega
      | false =>
          rw [if_neg (by decide), if_neg (by decide), ih _ _ (by omega)]
          congr 2 <;> omega

/-- The marks of pass 2, with no regard to what stood there -/
def freshMark (entry : MarkedEntry) : MarkedEntry := (entry.1, !entry.1.used)

structure Stopped (whole : Bool) (gcSize : Nat) (entries : List MarkedEntry) (new : Nat)
    (newer range : List MarkedEntry) : Prop where
  split : ∃ visited, entries = visited ++ newer ∧ range = (visited.map freshMark).reverse ∧
    ∀ early entry late, visited = early ++ entry :: late → whole = false →
      gcSize < unusedSize (entry :: late ++ newer)
  exact : new = unusedSize newer
  enough : newer ≠ [] → whole = false ∧ new ≤ gcSize

theorem markTargets_stopped (whole : Bool) (gcSize : Nat) (visited todo : List MarkedEntry)
    (early : ∀ front entry late, visited = front ++ entry :: late → whole = false →
      gcSize < unusedSize (entry :: late ++ todo)) :
    ∃ new newer range, markTargets whole gcSize (unusedSize todo) (visited.map freshMark).reverse todo =
      some (new, newer, range) ∧ Stopped whole gcSize (visited ++ todo) new newer range := by
  induction todo generalizing visited with
  | nil =>
      refine ⟨0, [], _, rfl, ⟨visited, rfl, rfl, early⟩, rfl, ?_⟩
      intro none
      exact absurd rfl none
  | cons entry newer ih =>
      rw [markTargets]
      by_cases stops : (!whole && decide (unusedSize (entry :: newer) ≤ gcSize)) = true
      · rw [if_pos stops]
        rw [Bool.and_eq_true, Bool.not_eq_true', decide_eq_true_eq] at stops
        exact ⟨_, _, _, rfl, ⟨visited, rfl, rfl, early⟩, rfl, fun _ => stops⟩
      · rw [if_neg stops]
        rw [Bool.and_eq_true, Bool.not_eq_true', decide_eq_true_eq, not_and, Nat.not_le] at stops
        have further : ∀ front other late, visited ++ [entry] = front ++ other :: late → whole = false →
            gcSize < unusedSize (other :: late ++ newer) := by
          intro front other late shape part
          rcases List.eq_nil_or_concat late with rfl | ⟨late, last, rfl⟩
          · have same := List.append_inj' shape rfl
            rw [← (List.cons.inj same.2).1]
            exact stops part
          · rw [List.concat_eq_append, ← List.cons_append, ← List.append_assoc] at shape
            have same := List.append_inj' shape rfl
            rw [List.concat_eq_append, ← (List.cons.inj same.2).1]
            have before := early front other late same.1 part
            simpa only [List.cons_append, List.append_assoc, List.singleton_append, List.nil_append] using before
        obtain ⟨new, left, range, ran, stopped⟩ := ih (visited ++ [entry]) further
        rw [List.append_assoc, List.singleton_append] at stopped
        refine ⟨new, left, range, ?_, stopped⟩
        rw [← ran, List.map_append, List.reverse_append, unusedSize_cons]
        cases used : entry.1.used with
        | true =>
            rw [if_pos rfl, if_pos rfl, Nat.zero_add]
            simp [freshMark, used]
        | false =>
            rw [if_neg (by decide), if_neg (by decide), subtractSize, if_pos (Nat.le_add_right _ _),
              Option.bind_some, Nat.add_sub_cancel_left]
            simp [freshMark, used]

end Sizes

section Fitting

def Fresh (range : List MarkedEntry) : Prop := ∀ entry ∈ range, entry.2 = !entry.1.used

theorem fresh_map (visited : List MarkedEntry) : Fresh (visited.map freshMark).reverse := by
  intro entry member
  rw [List.mem_reverse] at member
  obtain ⟨_, _, rfl⟩ := List.mem_map.mp member
  rfl

theorem Fresh.tail {entry : MarkedEntry} {range : List MarkedEntry} (fresh : Fresh (entry :: range)) : Fresh range :=
  fun other member => fresh other (List.mem_cons_of_mem entry member)

theorem unmarkFitting_fst (gcSize new : Nat) (range : List MarkedEntry) :
    (unmarkFitting gcSize new range).2.map Prod.fst = range.map Prod.fst := by
  induction range generalizing new with
  | nil => rfl
  | cons entry older ih =>
      rw [unmarkFitting]
      split
      · rw [List.map_cons, List.map_cons, ih]
      · rw [List.map_cons, List.map_cons, ih]

theorem unmarkFitting_bound {gcSize new : Nat} (range : List MarkedEntry) (low : new ≤ gcSize) :
    (unmarkFitting gcSize new range).1 ≤ gcSize := by
  induction range generalizing new with
  | nil => exact low
  | cons entry older ih =>
      rw [unmarkFitting]
      split
      · exact ih low
      · exact ih (by omega)

theorem unmarkFitting_unused {gcSize new : Nat} {range : List MarkedEntry} (fresh : Fresh range) :
    ∀ entry ∈ (unmarkFitting gcSize new range).2, entry.2 = true → entry.1.used = false := by
  induction range generalizing new with
  | nil =>
      intro entry none
      cases none
  | cons first older ih =>
      have mark := fresh first List.mem_cons_self
      intro entry member marked
      rw [unmarkFitting] at member
      split at member
      · rcases List.mem_cons.mp member with rfl | later
        · rw [marked] at mark
          rw [← Bool.not_eq_true', ← mark]
        · exact ih fresh.tail entry later marked
      · rcases List.mem_cons.mp member with rfl | later
        · cases marked
        · exact ih fresh.tail entry later marked

theorem unmarkFitting_kept {gcSize new : Nat} {range : List MarkedEntry} (fresh : Fresh range) :
    new + unusedSize (destroyMarked (unmarkFitting gcSize new range).2).kept ≤
      (unmarkFitting gcSize new range).1 := by
  induction range generalizing new with
  | nil => exact Nat.le_refl new
  | cons entry older ih =>
      have mark := fresh entry List.mem_cons_self
      rw [unmarkFitting]
      split
      · have rest : new + unusedSize (destroyMarked (unmarkFitting gcSize new older).2).kept ≤
            (unmarkFitting gcSize new older).1 := ih fresh.tail
        simp only [destroyMarked, List.filter_cons] at rest ⊢
        cases used : entry.1.used with
        | true =>
            rw [used] at mark
            rw [mark, if_pos (by decide), unusedSize_cons, if_pos used, Nat.zero_add]
            exact rest
        | false =>
            rw [used] at mark
            rw [mark, if_neg (by decide)]
            exact rest
      · have rest : new + entry.1.dataSize +
            unusedSize (destroyMarked (unmarkFitting gcSize (new + entry.1.dataSize) older).2).kept ≤
            (unmarkFitting gcSize (new + entry.1.dataSize) older).1 := ih fresh.tail
        simp only [destroyMarked, List.filter_cons] at rest ⊢
        rw [if_pos (by decide), unusedSize_cons]
        dsimp only
        split <;> omega

end Fitting

section Outcome

theorem gcCacheSize_le (optCacheSize : Nat) : gcCacheSize optCacheSize ≤ optCacheSize := by
  have wrapped := Nat.mod_le (optCacheSize * memoryCacheGcPercent) (2 ^ 64)
  rw [gcCacheSize]
  rw [memoryCacheGcPercent] at wrapped ⊢
  generalize optCacheSize * 90 % 2 ^ 64 = product at wrapped ⊢
  omega

def finalRange (whole : Bool) (gcSize new : Nat) (range : List MarkedEntry) : List MarkedEntry :=
  if whole then range else (unmarkFitting gcSize new range).2

/-- Either nothing is deleted, or the passes go through with the marks of the second and third. -/
theorem garbageCollection_cases (whole : Bool) (optCacheSize : Nat) (entries : List MarkedEntry) :
    (garbageCollection whole optCacheSize (totalSize entries) entries = some ⟨entries, []⟩ ∧
      (whole = true → entries = []) ∧ (whole = false → unusedSize entries ≤ optCacheSize)) ∨
    ∃ new newer range, Stopped whole (gcCacheSize optCacheSize) entries.reverse new newer range ∧
      (whole = false → optCacheSize < unusedSize entries) ∧
      garbageCollection whole optCacheSize (totalSize entries) entries = some
        ⟨newer.reverse ++ (destroyMarked (finalRange whole (gcCacheSize optCacheSize) new range)).kept,
          (destroyMarked (finalRange whole (gcCacheSize optCacheSize) new range)).deleted⟩ := by
  rw [garbageCollection]
  by_cases fits : (!whole && decide (totalSize entries ≤ optCacheSize)) = true
  · left
    rw [if_pos fits]
    rw [Bool.and_eq_true, Bool.not_eq_true', decide_eq_true_eq] at fits
    refine ⟨rfl, fun all => ?_, fun _ => Nat.le_trans (unusedSize_le entries) fits.2⟩
    rw [all] at fits
    cases fits.1
  · have part := unusedSize_le entries
    have left : totalSize entries - (totalSize entries - unusedSize entries) = unusedSize entries := by omega
    rw [if_neg fits, weedOutUsed_eq 0 _ entries (Nat.le_refl _), Nat.zero_add, left]
    simp only [Option.pure_def, Option.bind_eq_bind, Option.bind_some, ne_eq, not_true_eq_false, if_false]
    by_cases little : (!whole && decide (unusedSize entries ≤ optCacheSize)) = true
    · left
      rw [if_pos little]
      rw [Bool.and_eq_true, Bool.not_eq_true', decide_eq_true_eq] at little
      refine ⟨rfl, fun all => ?_, fun _ => little.2⟩
      rw [all] at little
      cases little.1
    · rw [if_neg little]
      rw [Bool.and_eq_true, Bool.not_eq_true', decide_eq_true_eq, not_and, Nat.not_le] at little
      obtain ⟨new, newer, range, ran, stopped⟩ := markTargets_stopped whole (gcCacheSize optCacheSize) []
        entries.reverse (by
          intro front entry late shape
          cases front <;> cases shape)
      rw [List.map_nil, List.reverse_nil, unusedSize_reverse] at ran
      rw [List.nil_append] at stopped
      have zero : ¬ (newer = [] ∧ new ≠ 0) := by
        rintro ⟨none, left⟩
        apply left
        rw [stopped.exact, none]
        rfl
      simp only [ran, Option.bind_some]
      rw [if_neg zero]
      by_cases untouched : range = []
      · left
        rw [if_pos untouched]
        obtain ⟨visited, split, marks, _⟩ := stopped.split
        have noVisit : visited = [] := by
          rw [untouched] at marks
          simpa using marks.symm
        rw [noVisit, List.nil_append] at split
        have none : newer = [] → entries = [] := by
          intro noNewer
          rw [noNewer] at split
          exact List.reverse_eq_nil_iff.mp split
        refine ⟨rfl, fun all => ?_, fun _ => ?_⟩
        · apply none
          by_contra some
          have stop := (stopped.enough some).1
          rw [all] at stop
          cases stop
        · by_cases noNewer : newer = []
          · rw [none noNewer]
            exact Nat.zero_le _
          · have low := (stopped.enough noNewer).2
            have limit := gcCacheSize_le optCacheSize
            rw [stopped.exact, ← split, unusedSize_reverse] at low
            exact Nat.le_trans low limit
      · right
        refine ⟨new, newer, range, stopped, little, ?_⟩
        rw [if_neg untouched]
        rfl

theorem finalRange_fst (whole : Bool) (gcSize new : Nat) (range : List MarkedEntry) :
    (finalRange whole gcSize new range).map Prod.fst = range.map Prod.fst := by
  rw [finalRange]
  split
  · rfl
  · exact unmarkFitting_fst gcSize new range

theorem finalRange_unused (whole : Bool) (gcSize new : Nat) {range : List MarkedEntry} (fresh : Fresh range) :
    ∀ entry ∈ finalRange whole gcSize new range, entry.2 = true → entry.1.used = false := by
  rw [finalRange]
  split
  · intro entry member marked
    have mark := fresh entry member
    rw [marked] at mark
    rw [← Bool.not_eq_true', ← mark]
  · exact unmarkFitting_unused fresh

theorem destroyMarked_perm (range : List MarkedEntry) :
    range.Perm ((destroyMarked range).kept ++ (destroyMarked range).deleted) := by
  have split := List.filter_append_perm (fun entry : MarkedEntry => !entry.2) range
  simp only [Bool.not_not] at split
  exact split.symm

/-- Everything that is not deleted stays in its order; what is deleted is neither locked nor
loading. No assertion about a size fails, in particular none of the subtractions. -/
theorem garbageCollection_safe (whole : Bool) (optCacheSize : Nat) (entries : List MarkedEntry) :
    ∃ collected, garbageCollection whole optCacheSize (totalSize entries) entries = some collected ∧
      (collected.kept.map Prod.fst).Sublist (entries.map Prod.fst) ∧
      (entries.map Prod.fst).Perm (collected.kept.map Prod.fst ++ collected.deleted.map Prod.fst) ∧
      (∀ entry ∈ collected.deleted, entry.1.used = false) ∧
      (whole = true → ∀ entry ∈ collected.kept, entry.1.used = true) ∧
      (whole = false → collected.deleted ≠ [] → unusedSize collected.kept ≤ gcCacheSize optCacheSize) := by
  rcases garbageCollection_cases whole optCacheSize entries with
    ⟨ran, none, _⟩ | ⟨new, newer, range, stopped, _, ran⟩
  · refine ⟨_, ran, List.Sublist.refl _, ?_, ?_, ?_, ?_⟩
    · simp
    · intro entry member
      cases member
    · intro all entry member
      rw [none all] at member
      cases member
    · intro _ some
      exact absurd rfl some
  · obtain ⟨visited, split, marks, _⟩ := stopped.split
    have fresh : Fresh range := marks ▸ fresh_map visited
    have whole_eq : entries = newer.reverse ++ visited.reverse := by
      rw [← List.reverse_append, ← split, List.reverse_reverse]
    have firsts : (finalRange whole (gcCacheSize optCacheSize) new range).map Prod.fst =
        visited.reverse.map Prod.fst := by
      rw [finalRange_fst, marks, List.map_reverse, List.map_map, List.map_reverse]
      rfl
    refine ⟨_, ran, ?_, ?_, ?_, ?_, ?_⟩
    · rw [whole_eq, List.map_append, List.map_append, ← firsts]
      exact (List.Sublist.refl _).append (List.filter_sublist.map _)
    · have parts := (destroyMarked_perm (finalRange whole (gcCacheSize optCacheSize) new range)).map Prod.fst
      rw [List.map_append, firsts] at parts
      rw [whole_eq, List.map_append, List.map_append, List.append_assoc]
      exact parts.append_left _
    · intro entry member
      have inRange := List.mem_filter.mp member
      exact finalRange_unused whole _ new fresh entry inRange.1 inRange.2
    · intro all entry member
      have noNewer : newer = [] := by
        by_contra some
        have stop := (stopped.enough some).1
        rw [all] at stop
        cases stop
      rw [noNewer, List.reverse_nil, List.nil_append, finalRange, if_pos all] at member
      have kept := List.mem_filter.mp member
      have mark := fresh entry kept.1
      rw [mark, Bool.not_not] at kept
      exact kept.2
    · intro part _
      have low : new ≤ gcCacheSize optCacheSize := by
        by_cases none : newer = []
        · rw [stopped.exact, none]
          exact Nat.zero_le _
        · exact (stopped.enough none).2
      have kept : new + unusedSize (destroyMarked (unmarkFitting (gcCacheSize optCacheSize) new range).2).kept ≤
          (unmarkFitting (gcCacheSize optCacheSize) new range).1 := unmarkFitting_kept fresh
      have bound := unmarkFitting_bound range low
      have counted := stopped.exact
      rw [unusedSize_append, unusedSize_reverse, finalRange, part, if_neg (by decide)]
      omega

end Outcome

end KcnTools.Cache
