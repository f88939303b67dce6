import Mathlib.Data.List.GetD
import Mathlib.Order.MinMax

/-!
Files that grow with holes: what is left of a file after writes at any offsets.
-/

namespace KcnTools.SparseFile

variable {κ α : Type}

def writeAt (hole : α) (contents : List α) (offset : Nat) (bytes : List α) : List α :=
  if bytes.length = 0 then contents
  else contents.take offset ++ List.replicate (offset - contents.length) hole ++ bytes ++
    contents.drop (offset + bytes.length)

structure FileWrite (κ α : Type) where
  file : κ
  offset : Nat
  bytes : List α
  deriving DecidableEq

def FileWrite.Covers (write : FileWrite κ α) (file : κ) (position : Nat) : Prop :=
  write.file = file ∧ write.offset ≤ position ∧ position < write.offset + write.bytes.length

def perform [DecidableEq κ] (hole : α) (disk : κ → Option (List α)) (write : FileWrite κ α) :
    κ → Option (List α) :=
  fun file =>
    if file = write.file then
      some (writeAt hole ((disk file).getD []) write.offset write.bytes)
    else disk file

def performAll [DecidableEq κ] (hole : α) (disk : κ → Option (List α))
    (writes : List (FileWrite κ α)) : κ → Option (List α) :=
  writes.foldl (perform hole) disk

def fileSize (disk : κ → Option (List α)) (file : κ) : Nat := ((disk file).getD []).length

def byteAt (hole : α) (disk : κ → Option (List α)) (file : κ) (position : Nat) : α :=
  ((disk file).getD []).getD position hole

section contents

variable {hole : α} {contents bytes : List α} {offset position : Nat}

theorem writeAt_length :
    (writeAt hole contents offset bytes).length =
      if bytes.length = 0 then contents.length else max contents.length (offset + bytes.length) := by
  rw [writeAt]
  split
  · rfl
  · simp only [List.length_append, List.length_take, List.length_replicate, List.length_drop]
    omega

theorem writeAt_prefix_length :
    (contents.take offset ++ List.replicate (offset - contents.length) hole).length = offset := by
  simp only [List.length_append, List.length_take, List.length_replicate]
  omega

theorem writeAt_inside (inside : position < bytes.length) :
    (writeAt hole contents offset bytes).getD (offset + position) hole = bytes.getD position hole := by
  rw [writeAt, if_neg (by omega), List.append_assoc]
  rw [List.getD_append_right _ _ _ _ (by rw [writeAt_prefix_length]; omega), writeAt_prefix_length,
    Nat.add_sub_cancel_left]
  exact List.getD_append _ _ _ _ inside

theorem writeAt_before (before : position < offset) :
    (writeAt hole contents offset bytes).getD position hole = contents.getD position hole := by
  rw [writeAt]
  split
  · rfl
  · rw [List.append_assoc, List.getD_append _ _ _ _ (by rw [writeAt_prefix_length]; exact before)]
    by_cases stored : position < contents.length
    · rw [List.getD_append _ _ _ _ (by rw [List.length_take]; omega)]
      simp only [List.getD_eq_getElem?_getD, List.getElem?_take, before, if_true]
    · rw [List.getD_append_right _ _ _ _ (by rw [List.length_take]; omega),
        List.getD_eq_default contents _ (by omega)]
      simp only [List.getD_eq_getElem?_getD, List.getElem?_replicate]
      split <;> rfl

theorem writeAt_after (after : offset + bytes.length ≤ position) :
    (writeAt hole contents offset bytes).getD position hole = contents.getD position hole := by
  rw [writeAt]
  split
  · rfl
  · rw [List.getD_append_right _ _ _ _ (by
      rw [List.length_append, writeAt_prefix_length]; exact after)]
    rw [List.length_append, writeAt_prefix_length]
    simp only [List.getD_eq_getElem?_getD, List.getElem?_drop]
    congr 2
    omega

end contents

variable [DecidableEq κ] {hole : α} {disk : κ → Option (List α)} {write : FileWrite κ α}
  {writes : List (FileWrite κ α)} {file : κ} {position : Nat}

theorem perform_isSome :
    (perform hole disk write file).isSome = true ↔
      (disk file).isSome = true ∨ write.file = file := by
  rw [perform]
  split
  · rename_i same
    exact iff_of_true rfl (.inr same.symm)
  · rename_i other
    exact (or_iff_left fun same => other same.symm).symm

theorem perform_size :
    position < fileSize (perform hole disk write) file ↔
      position < fileSize disk file ∨
        write.file = file ∧ 0 < write.bytes.length ∧
          position < write.offset + write.bytes.length := by
  rw [fileSize, fileSize, perform]
  split
  · rename_i same
    rw [Option.getD_some, writeAt_length]
    split
    · rename_i nothing
      exact (or_iff_left fun grows => absurd grows.2.1 (by omega)).symm
    · rename_i grows
      rw [lt_max_iff]
      exact or_congr_right ⟨fun inside => ⟨same.symm, by omega, inside⟩, fun inside => inside.2.2⟩
  · rename_i other
    exact (or_iff_left fun grows => other grows.1.symm).symm

theorem perform_untouched (missed : ¬write.Covers file position) :
    byteAt hole (perform hole disk write) file position = byteAt hole disk file position := by
  rw [byteAt, byteAt, perform]
  split
  · rename_i same
    rw [Option.getD_some]
    by_cases before : position < write.offset
    · exact writeAt_before before
    · refine writeAt_after (Nat.le_of_not_lt fun inside => missed ?_)
      exact ⟨same.symm, Nat.le_of_not_lt before, inside⟩
  · rfl

theorem perform_covered (covered : write.Covers file position) :
    byteAt hole (perform hole disk write) file position =
      write.bytes.getD (position - write.offset) hole := by
  obtain ⟨same, start, inside⟩ := covered
  rw [byteAt, perform, if_pos same.symm, Option.getD_some]
  have shifted : position = write.offset + (position - write.offset) := by omega
  conv_lhs => rw [shifted]
  exact writeAt_inside (by omega)

theorem performAll_isSome :
    (performAll hole disk writes file).isSome = true ↔
      (disk file).isSome = true ∨ ∃ write ∈ writes, write.file = file := by
  induction writes generalizing disk with
  | nil => simp [performAll]
  | cons write rest ih =>
      rw [performAll, List.foldl_cons]
      refine ih.trans ?_
      simp only [perform_isSome, List.mem_cons, exists_eq_or_imp, or_assoc]

theorem performAll_size :
    position < fileSize (performAll hole disk writes) file ↔
      position < fileSize disk file ∨ ∃ write ∈ writes, write.file = file ∧
        0 < write.bytes.length ∧ position < write.offset + write.bytes.length := by
  induction writes generalizing disk with
  | nil => simp [performAll]
  | cons write rest ih =>
      rw [performAll, List.foldl_cons]
      refine ih.trans ?_
      simp only [perform_size, List.mem_cons, exists_eq_or_imp, or_assoc]

theorem performAll_untouched (missed : ∀ write ∈ writes, ¬write.Covers file position) :
    byteAt hole (performAll hole disk writes) file position = byteAt hole disk file position := by
  induction writes generalizing disk with
  | nil => rfl
  | cons write rest ih =>
      rw [List.forall_mem_cons] at missed
      rw [performAll, List.foldl_cons]
      exact (ih missed.2).trans (perform_untouched missed.1)

theorem performAll_covered {value : α} (covered : ∃ write ∈ writes, write.Covers file position)
    (agree : ∀ write ∈ writes, write.Covers file position →
      write.bytes.getD (position - write.offset) hole = value) :
    byteAt hole (performAll hole disk writes) file position = value := by
  induction writes generalizing disk with
  | nil =>
      obtain ⟨_, member, _⟩ := covered
      exact absurd member List.not_mem_nil
  | cons write rest ih =>
      rw [List.forall_mem_cons] at agree
      rw [performAll, List.foldl_cons]
      by_cases later : ∃ write ∈ rest, write.Covers file position
      · exact ih later agree.2
      · have first : write.Covers file position := by
          simp only [List.mem_cons, exists_eq_or_imp] at covered
          exact covered.resolve_right later
        have kept : byteAt hole (performAll hole (perform hole disk write) rest) file position =
            byteAt hole (perform hole disk write) file position :=
          performAll_untouched fun write member covers => later ⟨write, member, covers⟩
        exact kept.trans ((perform_covered first).trans (agree.1 first))

end KcnTools.SparseFile
