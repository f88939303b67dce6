import Mathlib
import Mathlib.Data.List.GetD
import Mathlib.Data.List.InsertIdx
import Mathlib.Algebra.BigOperators.Intervals
import Mathlib.Algebra.Order.BigOperators.Group.Finset

/-! Sums over the numbers below a bound, one of whose terms changes. -/

namespace KcnTools.Total

open Finset

theorem sum_change {f g : Nat → Nat} {count place : Nat} (inside : place < count)
    (others : ∀ other, other ≠ place → g other = f other) :
    ∑ index ∈ range count, g index + f place = ∑ index ∈ range count, f index + g place := by
  have member := mem_range.mpr inside
  have rest : ∑ index ∈ (range count).erase place, g index =
      ∑ index ∈ (range count).erase place, f index :=
    sum_congr rfl fun index there => others index (ne_of_mem_erase there)
  rw [← add_sum_erase _ _ member, ← add_sum_erase _ f member, rest]
  omega

theorem sum_blocks (size total count : Nat) :
    ∑ block ∈ range count, min size (total - block * size) = min total (count * size) := by
  induction count with
  | zero => simp
  | succ count ih =>
      rw [sum_range_succ, ih, Nat.succ_mul]
      omega

/-- Terms that stay below their bounds reach the sum of these only together. -/
theorem sum_eq_bound {f bound : Nat → Nat} {count : Nat}
    (below : ∀ index < count, f index ≤ bound index) :
    ∑ index ∈ range count, f index = ∑ index ∈ range count, bound index ↔
      ∀ index < count, f index = bound index := by
  rw [sum_eq_sum_iff_of_le fun index member => below index (mem_range.mp member)]
  exact forall_congr' fun index => by rw [mem_range]

end KcnTools.Total

/-! How many elements of a list pass a test, when one element or one test changes. -/

namespace KcnTools.Count

variable {α : Type}

theorem countP_modify (p : α → Bool) {l : List α} {index : Nat} {f : α → α} {a : α}
    (here : l[index]? = some a) :
    (l.modify index f).countP p + (p a).toNat = l.countP p + (p (f a)).toNat := by
  induction l generalizing index with
  | nil => simp at here
  | cons b l ih =>
      cases index with
      | zero =>
          rw [List.getElem?_cons_zero, Option.some.injEq] at here
          subst here
          rw [List.modify_zero_cons, List.countP_cons, List.countP_cons]
          cases p b <;> cases p (f b) <;> simp
      | succ index =>
          have later := @ih index here
          rw [List.modify_succ_cons, List.countP_cons, List.countP_cons]
          omega

theorem countP_eraseIdx (p : α → Bool) {l : List α} {index : Nat} {a : α}
    (here : l[index]? = some a) : (l.eraseIdx index).countP p + (p a).toNat = l.countP p := by
  induction l generalizing index with
  | nil => simp at here
  | cons b l ih =>
      cases index with
      | zero =>
          rw [List.getElem?_cons_zero, Option.some.injEq] at here
          subst here
          rw [List.eraseIdx_cons_zero, List.countP_cons]
          cases p b <;> simp
      | succ index =>
          have later := @ih index here
          rw [List.eraseIdx_cons_succ, List.countP_cons, List.countP_cons]
          omega

theorem countP_except {p q : α → Bool} {l : List α} (nodup : l.Nodup) {a : α} (member : a ∈ l)
    (same : ∀ b, b ≠ a → q b = p b) :
    l.countP q + (p a).toNat = l.countP p + (q a).toNat := by
  induction l with
  | nil => simp at member
  | cons b l ih =>
      rw [List.nodup_cons] at nodup
      rw [List.countP_cons, List.countP_cons]
      rcases List.mem_cons.mp member with here | later
      · subst here
        have rest : l.countP q = l.countP p := by
          refine List.countP_congr fun c there => ?_
          rw [same c fun equal => nodup.1 (equal ▸ there)]
        rw [rest]
        cases p a <;> cases q a <;> simp
      · have apart : b ≠ a := fun equal => nodup.1 (equal ▸ later)
        have counted := ih nodup.2 later
        rw [same b apart]
        omega

end KcnTools.Count

/-! How far a list is from being sorted downwards by a key: the pairs in the wrong order. -/

namespace KcnTools.Inversions

variable {β α : Type} [LinearOrder α] (key : β → α)

def inversions : List β → Nat
  | [] => 0
  | first :: rest => rest.countP (fun second => key first < key second) + inversions rest

def crossings (front back : List β) : Nat :=
  (front.map fun first => back.countP fun second => key first < key second).sum

theorem inversions_append (front back : List β) :
    inversions key (front ++ back) = inversions key front + crossings key front back + inversions key back := by
  induction front with
  | nil => simp [inversions, crossings]
  | cons first front ih =>
      simp only [List.cons_append, inversions, ih, List.countP_append, crossings, List.map_cons, List.sum_cons]
      omega

theorem crossings_perm {front front' back back' : List β} (fronts : front.Perm front') (backs : back.Perm back') :
    crossings key front back = crossings key front' back' := by
  have counted : (fun first => back.countP fun second => key first < key second) =
      fun first => back'.countP fun second => key first < key second := by
    funext first
    exact backs.countP_eq _
  rw [crossings, crossings, counted]
  exact (fronts.map _).sum_eq

theorem inversions_stretch (front back : List β) {middle middle' : List β} (reordered : middle.Perm middle') :
    inversions key (front ++ middle ++ back) + inversions key middle' =
      inversions key (front ++ middle' ++ back) + inversions key middle := by
  simp only [inversions_append, crossings_perm key (List.Perm.refl front) reordered,
    crossings_perm key ((List.Perm.refl front).append reordered) (List.Perm.refl back)]
  omega

end KcnTools.Inversions
