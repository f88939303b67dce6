import Mathlib.Data.List.Basic

/-! Bounds-checked access to one allocated block of memory. The result `none` is
an access that reaches outside the block. -/

namespace KcnTools.Buffer

variable {α : Type}

def read (block : List α) (position count : Int) : Option (List α) :=
  if 0 ≤ position ∧ 0 ≤ count ∧ position + count ≤ block.length then
    some ((block.drop position.toNat).take count.toNat)
  else none

def write (block : List α) (position : Int) (source : List α) : Option (List α) :=
  if 0 ≤ position ∧ position + source.length ≤ block.length then
    some (block.take position.toNat ++ source ++ block.drop (position.toNat + source.length))
  else none

/-- Reallocation keeps the common part; what lies past it is unspecified, here `fill`. -/
def resize (fill : α) (block : List α) (size : Nat) : List α :=
  block.take size ++ List.replicate (size - block.length) fill

theorem read_eq_some {block : List α} {position count : Int}
    (lower : 0 ≤ position) (nonnegative : 0 ≤ count) (upper : position + count ≤ block.length) :
    read block position count = some ((block.drop position.toNat).take count.toNat) := by
  simp [read, lower, nonnegative, upper]

theorem read_exists (block : List α) (position count : Int)
    (lower : 0 ≤ position) (nonnegative : 0 ≤ count) (upper : position + count ≤ block.length) :
    ∃ bytes, read block position count = some bytes :=
  ⟨_, read_eq_some lower nonnegative upper⟩

theorem read_bounds {block bytes : List α} {position count : Int}
    (found : read block position count = some bytes) :
    0 ≤ position ∧ 0 ≤ count ∧ position + count ≤ block.length := by
  simp only [read] at found
  split at found
  · assumption
  · simp at found

theorem read_getElem? {block bytes : List α} {position count : Int}
    (found : read block position count = some bytes) (index : Nat) :
    bytes[index]? = if index < count then block[position.toNat + index]? else none := by
  have bounds := read_bounds found
  rw [read_eq_some bounds.1 bounds.2.1 bounds.2.2, Option.some.injEq] at found
  subst bytes
  rw [List.getElem?_take, List.getElem?_drop]
  by_cases inside : index < count
  · rw [if_pos (by omega), if_pos inside]
  · rw [if_neg (by omega), if_neg inside]

theorem read_length {block bytes : List α} {position count : Int}
    (found : read block position count = some bytes) : (bytes.length : Int) = count := by
  have bounds := read_bounds found
  rw [read_eq_some bounds.1 bounds.2.1 bounds.2.2, Option.some.injEq] at found
  subst bytes
  simp only [List.length_take, List.length_drop]
  omega

theorem write_eq_some {block source : List α} {position : Int}
    (lower : 0 ≤ position) (upper : position + source.length ≤ block.length) :
    write block position source = some
      (block.take position.toNat ++ source ++ block.drop (position.toNat + source.length)) := by
  simp [write, lower, upper]

theorem write_exists (block : List α) (position : Int) (source : List α)
    (lower : 0 ≤ position) (upper : position + source.length ≤ block.length) :
    ∃ after, write block position source = some after :=
  ⟨_, write_eq_some lower upper⟩

theorem write_bounds {block source after : List α} {position : Int}
    (written : write block position source = some after) :
    0 ≤ position ∧ position + source.length ≤ block.length := by
  simp only [write] at written
  split at written
  · assumption
  · simp at written

theorem write_length {block source after : List α} {position : Int}
    (written : write block position source = some after) : after.length = block.length := by
  have bounds := write_bounds written
  rw [write_eq_some bounds.1 bounds.2, Option.some.injEq] at written
  subst after
  simp only [List.length_append, List.length_take, List.length_drop]
  omega

theorem write_getElem? {block source after : List α} {position : Int}
    (written : write block position source = some after) (index : Nat) :
    after[index]? = if position ≤ index ∧ index < position + source.length then
      source[index - position.toNat]? else block[index]? := by
  have bounds := write_bounds written
  rw [write_eq_some bounds.1 bounds.2, Option.some.injEq] at written
  subst after
  have taken : (block.take position.toNat).length = position.toNat := by
    rw [List.length_take]
    omega
  rw [List.append_assoc, List.getElem?_append, taken]
  by_cases before : index < position.toNat
  · rw [if_pos before, if_neg (by omega), List.getElem?_take_of_lt before]
  · rw [if_neg before, List.getElem?_append]
    by_cases inside : index - position.toNat < source.length
    · rw [if_pos inside, if_pos (by omega)]
    · rw [if_neg inside, if_neg (by omega), List.getElem?_drop]
      congr 1
      omega

def get (block : List α) (index : Int) : Option α :=
  if 0 ≤ index then block[index.toNat]? else none

def put (block : List α) (index : Int) (value : α) : Option (List α) :=
  if 0 ≤ index ∧ index < block.length then some (block.set index.toNat value) else none

theorem get_append (front : List α) (value : α) (back : List α) :
    get (front ++ value :: back) front.length = some value := by
  rw [get, if_pos (Int.natCast_nonneg _), Int.toNat_natCast, List.getElem?_append_right (Nat.le_refl _),
    Nat.sub_self, List.getElem?_cons_zero]

theorem get_exists {block : List α} {index : Int} (lower : 0 ≤ index) (upper : index < block.length) :
    ∃ value, get block index = some value := by
  have inside : index.toNat < block.length := by omega
  exact ⟨block[index.toNat], by rw [get, if_pos lower, List.getElem?_eq_getElem inside]⟩

theorem put_append (front : List α) (old value : α) (back : List α) :
    put (front ++ old :: back) front.length value = some (front ++ value :: back) := by
  have inside : (0 : Int) ≤ front.length ∧ (front.length : Int) < (front ++ old :: back).length := by
    rw [List.length_append, List.length_cons]
    omega
  rw [put, if_pos inside, Int.toNat_natCast, List.set_append_right _ _ (Nat.le_refl _), Nat.sub_self,
    List.set_cons_zero]

theorem read_append (before bytes after : List α) :
    read (before ++ (bytes ++ after)) before.length bytes.length = some bytes := by
  have bound : (before.length : Int) + bytes.length ≤ (before ++ (bytes ++ after)).length := by
    simp only [List.length_append]
    omega
  rw [read_eq_some (Int.natCast_nonneg _) (Int.natCast_nonneg _) bound]
  simp

theorem write_append (before : List α) {old source : List α} (after : List α)
    (same : old.length = source.length) :
    write (before ++ (old ++ after)) before.length source = some (before ++ (source ++ after)) := by
  have bound : (before.length : Int) + source.length ≤ (before ++ (old ++ after)).length := by
    simp only [List.length_append]
    omega
  rw [write_eq_some (Int.natCast_nonneg _) bound]
  simp [← same]

theorem write_none {block source : List α} {position : Int}
    (outside : block.length < position + source.length) : write block position source = none := by
  rw [write, if_neg]
  rintro ⟨_, upper⟩
  omega

@[simp] theorem resize_length (fill : α) (block : List α) (size : Nat) :
    (resize fill block size).length = size := by
  simp only [resize, List.length_append, List.length_take, List.length_replicate]
  omega

theorem resize_getElem? (fill : α) (block : List α) {size index : Nat}
    (below : index < size) (kept : index < block.length) :
    (resize fill block size)[index]? = block[index]? := by
  rw [resize, List.getElem?_append_left (by rw [List.length_take]; omega),
    List.getElem?_take_of_lt below]

theorem write_behind (first : List α) {behind source : List α} (room : source.length ≤ behind.length) :
    write (first ++ behind) first.length source =
      some (first ++ (source ++ behind.drop source.length)) := by
  have same : (behind.take source.length).length = source.length := by
    rw [List.length_take]
    omega
  have written := write_append first (behind.drop source.length) same
  rwa [List.take_append_drop] at written

end KcnTools.Buffer
