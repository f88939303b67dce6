import Mathlib.Data.List.Basic

/-! Partial maps from integer positions to cells, given by lists of segments. A
segment fills one interval of positions; a list of segments is read from the
front, so that on ordered lists at most one segment answers a position. -/

namespace KcnTools

structure Segment (α : Type) where
  start : Int
  cells : List α

namespace Segment

variable {α : Type}

def stop (segment : Segment α) : Int := segment.start + segment.cells.length

def cell (segment : Segment α) (position : Int) : Option α :=
  if segment.start ≤ position then segment.cells[(position - segment.start).toNat]? else none

def lookup (segments : List (Segment α)) (position : Int) : Option α :=
  segments.findSome? fun segment => segment.cell position

def IsGapFreePrefix (map : Int → Option α) (count : Int) : Prop :=
  0 ≤ count ∧ (∀ position, 0 ≤ position → position < count → (map position).isSome) ∧
    map count = none

theorem cell_of_lt_start {segment : Segment α} {position : Int}
    (before : position < segment.start) : segment.cell position = none := by
  rw [cell, if_neg (by omega)]

theorem cell_of_stop_le {segment : Segment α} {position : Int}
    (after : segment.stop ≤ position) : segment.cell position = none := by
  rw [stop] at after
  rw [cell, if_pos (by omega)]
  exact List.getElem?_eq_none (by omega)

theorem cell_isSome {segment : Segment α} {position : Int}
    (lower : segment.start ≤ position) (upper : position < segment.stop) :
    (segment.cell position).isSome := by
  rw [stop] at upper
  rw [cell, if_pos lower, List.getElem?_eq_getElem (by omega), Option.isSome_some]

@[simp] theorem lookup_nil (position : Int) : lookup ([] : List (Segment α)) position = none := rfl

theorem lookup_cons (segment : Segment α) (segments : List (Segment α)) (position : Int) :
    lookup (segment :: segments) position =
      (segment.cell position).or (lookup segments position) := by
  rw [lookup, List.findSome?_cons]
  cases segment.cell position <;> rfl

theorem lookup_append (first second : List (Segment α)) (position : Int) :
    lookup (first ++ second) position = (lookup first position).or (lookup second position) := by
  simp [lookup, List.findSome?_append]

theorem lookup_of_stop_le {segments : List (Segment α)} {position : Int}
    (after : ∀ segment ∈ segments, segment.stop ≤ position) :
    lookup segments position = none := by
  rw [lookup, List.findSome?_eq_none_iff]
  intro segment member
  exact cell_of_stop_le (after segment member)

theorem lookup_of_lt_start {segments : List (Segment α)} {position : Int}
    (before : ∀ segment ∈ segments, position < segment.start) :
    lookup segments position = none := by
  rw [lookup, List.findSome?_eq_none_iff]
  intro segment member
  exact cell_of_lt_start (before segment member)

def Contiguous : Int → List (Segment α) → Prop
  | _, [] => True
  | start, segment :: rest => segment.start = start ∧ Contiguous segment.stop rest

def joined (start : Int) (segments : List (Segment α)) : Segment α :=
  ⟨start, segments.flatMap cells⟩

theorem lookup_contiguous {start : Int} {segments : List (Segment α)}
    (contiguous : Contiguous start segments) (position : Int) :
    lookup segments position = (joined start segments).cell position := by
  induction segments generalizing start with
  | nil => simp [cell, joined]
  | cons segment rest ih =>
      obtain ⟨same, tail⟩ := contiguous
      subst same
      rw [lookup_cons, ih tail]
      have whole : (joined segment.start (segment :: rest)).cell position =
          if segment.start ≤ position then
            (segment.cells ++ rest.flatMap cells)[(position - segment.start).toNat]? else none := rfl
      have later : (joined segment.stop rest).cell position =
          if segment.stop ≤ position then
            (rest.flatMap cells)[(position - segment.stop).toNat]? else none := rfl
      have stopEq : segment.stop = segment.start + segment.cells.length := rfl
      rw [whole, later]
      by_cases lower : segment.start ≤ position
      · rw [if_pos lower, List.getElem?_append]
        by_cases inside : position < segment.stop
        · rw [if_neg (show ¬segment.stop ≤ position by omega), if_pos (by omega), Option.or_none,
            cell, if_pos lower]
        · rw [if_pos (show segment.stop ≤ position by omega), if_neg (by omega),
            cell_of_stop_le (by omega), Option.none_or]
          congr 1
          omega
      · rw [if_neg lower, if_neg (by omega), cell_of_lt_start (by omega), Option.none_or]

end Segment

end KcnTools
