import Mathlib.Data.Fintype.EquivFin

/-!
Merging new items into a numbered row. Each new item has the number of the old one in front of which
it goes, and the ranks say where everything stands then.
-/

namespace KcnTools.MergeRanks

/-- The rank of an item: the old ones have the indices below `count`, the new ones follow in their
order. An index behind them all is left as it is. -/
def rank (count : Nat) (places : List Nat) (index : Nat) : Nat :=
  if index < count then index + places.countP (· ≤ index)
  else
    match places[index - count]? with
    | some place => place + (index - count)
    | none => index

variable {count : Nat} {places : List Nat}

theorem rank_old {index : Nat} (old : index < count) : rank count places index = index + places.countP (· ≤ index) :=
  if_pos old

theorem rank_new {k place : Nat} (here : places[k]? = some place) : rank count places (count + k) = place + k := by
  rw [rank, if_neg (by omega), Nat.add_sub_cancel_left, here]

theorem rank_nil (index : Nat) : rank count [] index = index := by
  rw [rank]
  split
  · rfl
  · rfl

/-! One more item, behind the places of the earlier ones. -/

theorem countP_le_all {place : Nat} (behind : ∀ p ∈ places, p ≤ place) : places.countP (· ≤ place) = places.length :=
  List.countP_eq_length.mpr fun p member => decide_eq_true (behind p member)

/-- The rank that is copied is the one of the item that the new one goes in front of. -/
theorem rank_place {place : Nat} (behind : ∀ p ∈ places, p ≤ place) (old : place < count) :
    rank count places place = place + places.length := by
  rw [rank_old old, countP_le_all behind]

theorem rank_concat (place index : Nat) :
    rank count (places ++ [place]) index =
      if index < count then rank count places index + (if place ≤ index then 1 else 0)
      else if index = count + places.length then place + places.length else rank count places index := by
  by_cases old : index < count
  · rw [if_pos old, rank_old old, rank_old old, List.countP_append, List.countP_singleton]
    simp only [decide_eq_true_eq]
    omega
  · obtain ⟨k, rfl⟩ := Nat.exists_eq_add_of_le (Nat.le_of_not_lt old)
    rw [if_neg old, rank, if_neg old, rank, if_neg old, Nat.add_sub_cancel_left]
    rcases Nat.lt_trichotomy k places.length with inside | rfl | outside
    · rw [if_neg (by omega), List.getElem?_append_left inside]
    · rw [if_pos rfl, List.getElem?_concat_length]
    · rw [if_neg (by omega), List.getElem?_eq_none (by rw [List.length_append, List.length_singleton]; omega),
        List.getElem?_eq_none (by omega)]

/-! The order of the ranks. -/

section Sorted

variable (sorted : places.Pairwise (· ≤ ·)) (inside : ∀ p ∈ places, p ≤ count)

theorem sorted_getElem? {places : List Nat} (sorted : places.Pairwise (· ≤ ·)) {i j p q : Nat} (le : i ≤ j)
    (first : places[i]? = some p) (second : places[j]? = some q) : p ≤ q := by
  rcases Nat.lt_or_eq_of_le le with before | rfl
  · obtain ⟨iInside, rfl⟩ := List.getElem?_eq_some_iff.mp first
    obtain ⟨jInside, rfl⟩ := List.getElem?_eq_some_iff.mp second
    exact List.pairwise_iff_getElem.mp sorted i j iInside jInside before
  · rw [first, Option.some.injEq] at second
    exact Nat.le_of_eq second

theorem rank_old_lt {low high : Nat} (less : low < high) (old : high < count) :
    rank count places low < rank count places high := by
  have more : places.countP (· ≤ low) ≤ places.countP (· ≤ high) :=
    List.countP_mono_left fun p _ below => decide_eq_true (Nat.le_trans (of_decide_eq_true below) (Nat.le_of_lt less))
  rw [rank_old (Nat.lt_trans less old), rank_old old]
  omega

include sorted in
theorem rank_new_lt {low high : Nat} (less : low < high) (new : high < places.length) :
    rank count places (count + low) < rank count places (count + high) := by
  have first := List.getElem?_eq_getElem (Nat.lt_trans less new)
  have second := List.getElem?_eq_getElem new
  have le := sorted_getElem? sorted (Nat.le_of_lt less) first second
  rw [rank_new first, rank_new second]
  omega

include sorted in
theorem countP_place {k place : Nat} (here : places[k]? = some place) (number : Nat) :
    (place ≤ number → k < places.countP (· ≤ number)) ∧ (number < place → places.countP (· ≤ number) ≤ k) := by
  have parts := List.take_append_drop k places
  have length : (places.take k).length ≤ k := List.length_take_le k places
  have small := (List.getElem?_eq_some_iff.mp here).1
  constructor
  · intro le
    have front : ∀ p ∈ places.take (k + 1), decide (p ≤ number) = true := by
      intro p member
      obtain ⟨i, low, rfl⟩ := List.getElem_of_mem member
      rw [List.length_take] at low
      rw [List.getElem_take]
      have := sorted_getElem? sorted (by omega : i ≤ k) (List.getElem?_eq_getElem (by omega)) here
      exact decide_eq_true (Nat.le_trans this le)
    have all := List.countP_eq_length.mpr front
    have part : (places.take (k + 1)).countP (· ≤ number) ≤ places.countP (· ≤ number) :=
      (List.take_sublist _ _).countP_le
    rw [all, List.length_take] at part
    omega
  · intro less
    have back : (places.drop k).countP (· ≤ number) = 0 := by
      rw [List.countP_eq_zero]
      intro p member
      obtain ⟨i, low, rfl⟩ := List.getElem_of_mem member
      rw [List.length_drop] at low
      rw [List.getElem_drop]
      have := sorted_getElem? sorted (by omega : k ≤ k + i) here (List.getElem?_eq_getElem (by omega))
      rw [decide_eq_true_eq]
      omega
    have front := List.countP_le_length (p := fun p => decide (p ≤ number)) (l := places.take k)
    rw [← parts, List.countP_append, back]
    omega

include sorted in
/-- A new item stands in front of the old ones from its place on, and behind the others. -/
theorem rank_new_old {k place number : Nat} (here : places[k]? = some place) (old : number < count) :
    (place ≤ number → rank count places (count + k) < rank count places number) ∧
      (number < place → rank count places number < rank count places (count + k)) := by
  have counted := countP_place sorted here number
  rw [rank_new here, rank_old old]
  exact ⟨fun le => by have := counted.1 le; omega, fun less => by have := counted.2 less; omega⟩

include sorted in
theorem rank_injective {i j : Nat} (iInside : i < count + places.length) (jInside : j < count + places.length)
    (same : rank count places i = rank count places j) : i = j := by
  have new : ∀ {k}, ¬ k < count → k < count + places.length → ∃ n place, k = count + n ∧ places[n]? = some place := by
    intro k old small
    obtain ⟨n, rfl⟩ := Nat.exists_eq_add_of_le (Nat.le_of_not_lt old)
    exact ⟨n, _, rfl, List.getElem?_eq_getElem (by omega)⟩
  by_cases iOld : i < count
  · by_cases jOld : j < count
    · rcases Nat.lt_trichotomy i j with less | equal | less
      · exact absurd same (Nat.ne_of_lt (rank_old_lt less jOld))
      · exact equal
      · exact absurd same.symm (Nat.ne_of_lt (rank_old_lt less iOld))
    · obtain ⟨n, place, rfl, here⟩ := new jOld jInside
      have order := rank_new_old sorted here iOld
      rcases Nat.lt_or_ge i place with less | le
      · exact absurd same (Nat.ne_of_lt (order.2 less))
      · exact absurd same.symm (Nat.ne_of_lt (order.1 le))
  · obtain ⟨m, first, rfl, there⟩ := new iOld iInside
    by_cases jOld : j < count
    · have order := rank_new_old sorted there jOld
      rcases Nat.lt_or_ge j first with less | le
      · exact absurd same.symm (Nat.ne_of_lt (order.2 less))
      · exact absurd same (Nat.ne_of_lt (order.1 le))
    · obtain ⟨n, second, rfl, -⟩ := new jOld jInside
      rcases Nat.lt_trichotomy m n with less | equal | less
      · exact absurd same (Nat.ne_of_lt (rank_new_lt sorted less (by omega)))
      · rw [equal]
      · exact absurd same.symm (Nat.ne_of_lt (rank_new_lt sorted less (by omega)))

include inside in
theorem rank_lt {index : Nat} (small : index < count + places.length) :
    rank count places index < count + places.length := by
  by_cases old : index < count
  · have := List.countP_le_length (p := fun p => decide (p ≤ index)) (l := places)
    rw [rank_old old]
    omega
  · obtain ⟨k, rfl⟩ := Nat.exists_eq_add_of_le (Nat.le_of_not_lt old)
    have here := List.getElem?_eq_getElem (by omega : k < places.length)
    have := inside _ (List.mem_of_getElem? here)
    rw [rank_new here]
    omega

include sorted inside in
theorem rank_surjective {r : Nat} (small : r < count + places.length) :
    ∃ index, index < count + places.length ∧ rank count places index = r := by
  let ranks : Fin (count + places.length) → Fin (count + places.length) :=
    fun index => ⟨rank count places index, rank_lt inside index.isLt⟩
  have injective : Function.Injective ranks := fun i j same =>
    Fin.ext (rank_injective sorted i.isLt j.isLt (congrArg Fin.val same))
  obtain ⟨index, equal⟩ := Finite.injective_iff_surjective.mp injective ⟨r, small⟩
  exact ⟨index, index.isLt, congrArg Fin.val equal⟩

end Sorted

end KcnTools.MergeRanks
