import Mathlib.Data.List.TakeWhile
import KcnTools.Protocol.UriNormalize

/-!
The function on strings that the loop of `normalize_uri` computes in its buffer: `out`
holds the bytes already written, last one first, and `src` those still to be read.
-/

namespace KcnTools.Protocols

def dropElement (isSep : UInt8 → Bool) : List UInt8 → List UInt8
  | [] => []
  | c :: out => if isSep c then out else dropElement isSep out

def normalPath (isSep : UInt8 → Bool) (out src : List UInt8) : List UInt8 :=
  match src with
  | [] => out.reverse
  | c :: rest =>
      match pathStep isSep (byteAt (c :: rest)) with
      | .endOfPath => out.reverse ++ c :: rest
      | .lastDot => out.reverse ++ [c]
      | .skipDot => normalPath isSep out (rest.drop 1)
      | .lastElevator => (dropElement isSep out.tail).reverse ++ [c]
      | .elevator => normalPath isSep (dropElement isSep out.tail) (rest.drop 2)
      | .skipSlash => normalPath isSep out rest
      | .copy => normalPath isSep (c :: out) rest
termination_by src.length
decreasing_by
  all_goals
    simp only [List.length_drop, List.length_cons]
    omega

theorem dropElement_suffix (isSep : UInt8 → Bool) (out : List UInt8) :
    dropElement isSep out <:+ out := by
  induction out with
  | nil => exact List.suffix_rfl
  | cons c out ih =>
      rw [dropElement]
      split
      · exact List.suffix_cons c out
      · exact ih.trans (List.suffix_cons c out)

/-! The bytes of the buffer from `path` on. -/

def Window (buffer : List UInt8) (path : Nat) (out : List UInt8) : Prop :=
  out.reverse <+: buffer.drop path

theorem Window.of_suffix {buffer out shorter : List UInt8} {path : Nat}
    (window : Window buffer path out) (suffix : shorter <:+ out) :
    Window buffer path shorter :=
  (List.reverse_prefix.mpr suffix).trans window

theorem byteAt_drop (buffer : List UInt8) (start index : Nat) :
    byteAt (buffer.drop start) index = byteAt buffer (start + index) := by
  simp only [byteAt, List.getD_eq_getElem?_getD, List.getElem?_drop]

theorem Window.byteAt_last {buffer out : List UInt8} {path : Nat} {c : UInt8}
    (window : Window buffer path (c :: out)) : byteAt buffer (path + out.length) = c := by
  obtain ⟨rest, whole⟩ := window
  rw [← byteAt_drop, ← whole, byteAt, List.getD_eq_getElem?_getD, List.reverse_cons,
    List.append_assoc, List.getElem?_append_right (by simp only [List.length_reverse, Nat.le_refl]),
    List.length_reverse, Nat.sub_self]
  rfl

theorem seekSep_eq (isSep : UInt8 → Bool) {buffer out : List UInt8} {path : Nat}
    (window : Window buffer path out) :
    seekSep isSep buffer path (path + out.length) = path + (dropElement isSep out).length := by
  induction out with
  | nil =>
      cases path with
      | zero => rfl
      | succ path =>
          rw [List.length_nil, Nat.add_zero, seekSep, if_neg (by omega)]
          rfl
  | cons c out ih =>
      rw [List.length_cons, ← Nat.add_assoc, seekSep, if_pos (by omega), window.byteAt_last,
        dropElement]
      split
      · rfl
      · exact ih (window.of_suffix (List.suffix_cons c out))

theorem backOut_eq (isSep : UInt8 → Bool) {buffer out : List UInt8} {path : Nat}
    (window : Window buffer path out) :
    backOut isSep buffer path (path + out.length) =
      path + (dropElement isSep out.tail).length := by
  have tail := seekSep_eq isSep (window.of_suffix (List.tail_suffix out))
  rw [← tail, backOut]
  cases out with
  | nil => rw [if_neg (by simp)]; rfl
  | cons c out =>
      rw [if_pos (by simp)]
      rfl

theorem cString_of_not_mem {bytes : List UInt8} (noNul : 0 ∉ bytes) : cString bytes = bytes := by
  rw [cString, List.takeWhile_eq_self_iff]
  intro c member
  simp only [bne_iff_ne, ne_eq]
  rintro rfl
  exact noNul member

theorem cString_append (first : List UInt8) (noNul : 0 ∉ first) (rest : List UInt8) :
    cString (first ++ rest) = first ++ cString rest := by
  rw [cString, List.takeWhile_append_of_pos]
  · rfl
  · intro c member
    simp only [bne_iff_ne, ne_eq]
    rintro rfl
    exact noNul member

theorem cString_append_nul {bytes : List UInt8} (noNul : 0 ∉ bytes) (rest : List UInt8) :
    cString (bytes ++ 0 :: rest) = bytes := by
  rw [cString_append bytes noNul]
  simp [cString]

theorem Window.set {buffer out : List UInt8} {path : Nat} (window : Window buffer path out)
    (c : UInt8) (inside : path + out.length < buffer.length) :
    Window (buffer.set (path + out.length) c) path (c :: out) := by
  obtain ⟨rest, whole⟩ := window
  have nonempty : rest ≠ [] := by
    rintro rfl
    have length := congrArg List.length whole
    simp only [List.append_nil, List.length_reverse, List.length_drop] at length
    omega
  obtain ⟨old, rest, rfl⟩ := List.exists_cons_of_ne_nil nonempty
  refine ⟨rest, ?_⟩
  rw [List.drop_set, if_neg (by omega), ← whole, Nat.add_sub_cancel_left, List.set_append_right _ _
    (by simp only [List.length_reverse, Nat.le_refl]), List.length_reverse, Nat.sub_self, List.set_cons_zero,
    List.reverse_cons, List.append_assoc]
  rfl

theorem Window.drop_take {buffer out : List UInt8} {path : Nat}
    (window : Window buffer path out) :
    (buffer.take (path + out.length)).drop path = out.reverse := by
  rw [List.drop_take, Nat.add_sub_cancel_left]
  have taken := List.prefix_iff_eq_take.mp window
  rw [List.length_reverse] at taken
  exact taken.symm

theorem Window.not_mem {buffer out : List UInt8} {path : Nat} (window : Window buffer path out)
    (noNul : 0 ∉ buffer) : 0 ∉ out := by
  intro member
  exact noNul (List.mem_of_mem_drop (window.subset (List.mem_reverse.mpr member)))

theorem Window.cString_set {buffer out : List UInt8} {path : Nat}
    (window : Window buffer path out) (noNul : 0 ∉ out)
    (inside : path + out.length ≤ buffer.length) :
    cString ((buffer.set (path + out.length) 0).drop path) = out.reverse := by
  have clean : 0 ∉ out.reverse := by rwa [List.mem_reverse]
  by_cases full : path + out.length = buffer.length
  · obtain ⟨rest, whole⟩ := window
    have length := congrArg List.length whole
    rw [List.length_append, List.length_reverse, List.length_drop] at length
    have nothing : rest = [] := List.eq_nil_of_length_eq_zero (by omega)
    rw [List.set_eq_of_length_le (by omega), ← whole, nothing, List.append_nil]
    exact cString_of_not_mem clean
  · obtain ⟨rest, whole⟩ := window.set 0 (by omega)
    rw [← whole, List.reverse_cons, List.append_assoc]
    exact cString_append_nul clean rest

theorem Window.cString_endWith {buffer out : List UInt8} {path : Nat}
    (window : Window buffer path out) (noNul : 0 ∉ out) (c : UInt8) (visible : c ≠ 0)
    (inside : path + out.length < buffer.length) :
    cString ((endWith buffer (path + out.length) c).drop path) = out.reverse ++ [c] := by
  have longer := (window.set c inside).cString_set (by
    rw [List.mem_cons, not_or]
    exact ⟨visible.symm, noNul⟩) (by rw [List.length_set, List.length_cons]; omega)
  rw [List.reverse_cons] at longer
  exact longer

theorem pathStep_cases {isSep : UInt8 → Bool} (dot : isSep 46 = false) (s : Nat → UInt8) :
    match pathStep isSep s with
    | .endOfPath => endOfDir (s 0) = true
    | .lastDot => isSep (s 0) = true ∧ s 1 = 46 ∧ s 2 = 0
    | .skipDot => isSep (s 0) = true ∧ s 1 = 46 ∧ isSep (s 2) = true
    | .lastElevator => isSep (s 0) = true ∧ s 1 = 46 ∧ s 2 = 46 ∧ s 3 = 0
    | .elevator => isSep (s 0) = true ∧ s 1 = 46 ∧ s 2 = 46 ∧ isSep (s 3) = true
    | .skipSlash => isSep (s 0) = true ∧ isSep (s 1) = true
    | .copy => endOfDir (s 0) = false ∧ (isSep (s 0) = true → isSep (s 1) = false ∧
        ¬(s 1 = 46 ∧ s 2 = 46 ∧ (isSep (s 3) = true ∨ s 3 = 0))) := by
  by_cases ends : endOfDir (s 0) = true
  · simp only [pathStep, if_pos ends]
    exact ends
  rw [Bool.not_eq_true] at ends
  by_cases start : isSep (s 0) = true
  · by_cases one : s 1 = 46
    · by_cases none : s 2 = 0
      · simp [pathStep, ends, start, one, none]
      · by_cases next : isSep (s 2) = true
        · simp [pathStep, ends, start, one, none, next]
        · by_cases two : s 2 = 46
          · by_cases last : s 3 = 0
            · simp [pathStep, ends, start, one, dot, two, last]
            · by_cases more : isSep (s 3) = true
              · simp [pathStep, ends, start, one, dot, two, last, more]
              · simp [pathStep, ends, start, one, dot, two, last, more]
          · simp [pathStep, ends, start, one, dot, none, next, two]
    · by_cases double : isSep (s 1) = true
      · simp [pathStep, ends, start, one, double]
      · simp [pathStep, ends, start, one, double]
  · simp [pathStep, ends, start]

theorem byteAt_ne_zero {buffer : List UInt8} {index : Nat} (noNul : 0 ∉ buffer)
    (inside : index < buffer.length) : byteAt buffer index ≠ 0 := by
  intro nul
  rw [byteAt, List.getD_eq_getElem?_getD, List.getElem?_eq_getElem inside, Option.getD_some] at nul
  exact noNul (nul ▸ List.getElem_mem inside)

theorem lt_of_byteAt_ne_zero {buffer : List UInt8} {index : Nat}
    (visible : byteAt buffer index ≠ 0) : index < buffer.length := by
  by_contra beyond
  apply visible
  rw [byteAt, List.getD_eq_getElem?_getD, List.getElem?_eq_none (by omega), Option.getD_none]

theorem lt_of_isSep {isSep : UInt8 → Bool} (nul : isSep 0 = false) {buffer : List UInt8}
    {index : Nat} (found : isSep (byteAt buffer index) = true) : index < buffer.length := by
  apply lt_of_byteAt_ne_zero
  intro zero
  rw [zero, nul] at found
  exact absurd found (by decide)

/-- At the end of the string the loop writes the NUL, if it is not there already. -/
theorem normalizeLoop_end {isSep : UInt8 → Bool} (nul : isSep 0 = false) {path fuel : Nat}
    {buffer out : List UInt8} (noNul : 0 ∉ buffer) (window : Window buffer path out)
    (room : path + out.length ≤ buffer.length) (enough : 2 ≤ fuel) :
    cString ((normalizeLoop isSep path fuel buffer buffer.length (path + out.length)).drop path) =
      out.reverse := by
  obtain ⟨fuel, rfl⟩ := Nat.exists_eq_add_of_le' enough
  have clean := window.not_mem noNul
  have past : ∀ index, byteAt buffer (buffer.length + index) = 0 := by
    intro index
    rw [byteAt, List.getD_eq_getElem?_getD, List.getElem?_eq_none (by omega), Option.getD_none]
  by_cases full : path + out.length = buffer.length
  · have whole := window.cString_set clean room
    rw [List.set_eq_of_length_le (by omega)] at whole
    rw [normalizeLoop, if_pos (by rw [full]; exact past 0)]
    exact whole
  · have step : pathStep isSep (fun index => byteAt buffer (buffer.length + index)) = .copy := by
      have zero := past 0
      rw [Nat.add_zero] at zero
      simp [pathStep, zero, nul, endOfDir, postChar]
    have written : byteAt (buffer.set (path + out.length) 0) (path + out.length) = 0 := by
      rw [byteAt, List.getD_eq_getElem?_getD, List.getElem?_set_self (by omega), Option.getD_some]
    rw [normalizeLoop, if_neg (byteAt_ne_zero noNul (by omega)), step]
    simp only [show byteAt buffer buffer.length = 0 from past 0, ↓reduceIte]
    rw [normalizeLoop, if_pos written]
    exact window.cString_set clean room

theorem normalizeLoop_eq {isSep : UInt8 → Bool} (nul : isSep 0 = false) (dot : isSep 46 = false)
    {path fuel : Nat} (buffer : List UInt8) (src : Nat) (out : List UInt8) (noNul : 0 ∉ buffer)
    (window : Window buffer path out) (behind : path + out.length ≤ src)
    (inside : src ≤ buffer.length) (enough : buffer.length - src + 2 ≤ fuel) :
    cString ((normalizeLoop isSep path fuel buffer src (path + out.length)).drop path) =
      normalPath isSep out (buffer.drop src) := by
  induction fuel generalizing buffer src out with
  | zero => omega
  | succ fuel ih =>
      by_cases last : src = buffer.length
      · subst last
        rw [List.drop_length, normalPath]
        exact normalizeLoop_end nul noNul window behind (by omega)
      · obtain ⟨c, rest, whole⟩ : ∃ c rest, buffer.drop src = c :: rest := by
          apply List.exists_cons_of_ne_nil
          simp only [ne_eq, List.drop_eq_nil_iff]
          omega
        have bytes : (fun index => byteAt buffer (src + index)) = byteAt (c :: rest) := by
          funext index
          rw [← byteAt_drop, whole]
        have first : byteAt buffer src = c := congrFun bytes 0
        have visible : c ≠ 0 := by
          rw [← first]
          exact byteAt_ne_zero noNul (by omega)
        have length : (c :: rest).length = buffer.length - src := by rw [← whole, List.length_drop]
        have dropped : ∀ count, buffer.drop (src + 1 + count) = rest.drop count := by
          intro count
          rw [Nat.add_assoc, Nat.add_comm 1, ← List.drop_drop, whole, List.drop_succ_cons]
        have clean := window.not_mem noNul
        have spec := pathStep_cases dot (byteAt (c :: rest))
        have room : ∀ index, isSep (byteAt (c :: rest) index) = true →
            src + index < buffer.length := by
          intro index found
          have bound := lt_of_isSep nul found
          omega
        rw [whole, normalizeLoop, if_neg (byteAt_ne_zero noNul (by omega)), bytes, normalPath]
        cases step : pathStep isSep (byteAt (c :: rest)) with
        | endOfPath =>
            have restClean : 0 ∉ c :: rest := by
              rw [← whole]
              exact fun member => noNul (List.mem_of_mem_drop member)
            have bothClean : 0 ∉ out.reverse ++ c :: rest := by
              rw [List.mem_append, List.mem_reverse, not_or]
              exact ⟨clean, restClean⟩
            simp only [moveString, whole, cString_of_not_mem restClean]
            rw [List.append_assoc, List.drop_append_of_le_length (by rw [List.length_take]; omega),
              window.drop_take, ← List.append_assoc]
            exact cString_append_nul bothClean _
        | lastDot =>
            simp only [first]
            exact window.cString_endWith clean c visible (by omega)
        | skipDot =>
            rw [step] at spec
            have bound := room 2 spec.2.2
            simp only [← dropped 1]
            exact ih buffer _ out noNul window (by omega) (by omega) (by omega)
        | lastElevator =>
            have suffix := (dropElement_suffix isSep out.tail).trans (List.tail_suffix out)
            have shorter := suffix.length_le
            simp only [first]
            rw [backOut_eq isSep window]
            exact (window.of_suffix suffix).cString_endWith
              (fun member => clean (suffix.subset member)) c visible (by omega)
        | elevator =>
            rw [step] at spec
            have bound := room 3 spec.2.2.2
            have suffix := (dropElement_suffix isSep out.tail).trans (List.tail_suffix out)
            have shorter := suffix.length_le
            simp only [← dropped 2]
            rw [backOut_eq isSep window]
            exact ih buffer _ _ noNul (window.of_suffix suffix) (by omega) (by omega) (by omega)
        | skipSlash =>
            rw [step] at spec
            have bound := room 1 spec.2
            simp only [show rest = buffer.drop (src + 1) from (dropped 0).symm]
            exact ih buffer _ out noNul window (by omega) (by omega) (by omega)
        | copy =>
            simp only [first, if_neg visible, show rest = buffer.drop (src + 1) from (dropped 0).symm]
            have longer := ih (buffer.set (path + out.length) c) (src + 1) (c :: out) (by
                intro member
                rcases List.mem_or_eq_of_mem_set member with older | same
                · exact noNul older
                · exact visible same.symm) (window.set c (by omega))
              (by rw [List.length_cons]; omega) (by rw [List.length_set]; omega)
              (by rw [List.length_set]; omega)
            rw [List.drop_set_of_lt (by omega)] at longer
            exact longer

/-! What stands before the path is left alone. -/

theorem seekSep_bounds (isSep : UInt8 → Bool) (buffer : List UInt8) {path : Nat} (dest : Nat)
    (behind : path ≤ dest) :
    path ≤ seekSep isSep buffer path dest ∧ seekSep isSep buffer path dest ≤ dest := by
  induction dest with
  | zero => exact ⟨behind, Nat.le_refl 0⟩
  | succ dest ih =>
      rw [seekSep]
      split
      · split
        · omega
        · have bounds := ih (by omega)
          omega
      · omega

theorem backOut_bounds (isSep : UInt8 → Bool) (buffer : List UInt8) {path dest : Nat}
    (behind : path ≤ dest) :
    path ≤ backOut isSep buffer path dest ∧ backOut isSep buffer path dest ≤ dest := by
  rw [backOut]
  split
  · have bounds := seekSep_bounds isSep buffer (dest - 1) (show path ≤ dest - 1 by omega)
    omega
  · exact seekSep_bounds isSep buffer dest behind

theorem take_endWith (buffer : List UInt8) {path dest : Nat} (behind : path ≤ dest) (c : UInt8) :
    (endWith buffer dest c).take path = buffer.take path := by
  rw [endWith, List.take_set_of_le (by omega), List.take_set_of_le behind]

theorem normalizeLoop_take (isSep : UInt8 → Bool) {path : Nat} (fuel : Nat) (buffer : List UInt8)
    (src : Nat) {dest : Nat} (behind : path ≤ dest) (inside : dest ≤ buffer.length) :
    (normalizeLoop isSep path fuel buffer src dest).take path = buffer.take path := by
  induction fuel generalizing buffer src dest with
  | zero => rfl
  | succ fuel ih =>
      have bounds := backOut_bounds isSep buffer behind
      rw [normalizeLoop]
      split
      · rfl
      · rename_i visible
        have below := lt_of_byteAt_ne_zero visible
        split
        · rw [moveString, List.append_assoc, List.take_append_of_le_length
            (by rw [List.length_take]; omega), List.take_take, Nat.min_eq_left behind]
        · exact take_endWith buffer behind _
        · exact ih buffer _ behind inside
        · exact take_endWith buffer bounds.1 _
        · exact ih buffer _ bounds.1 (by omega)
        · exact ih buffer _ behind inside
        · rw [ih _ _ (by split <;> omega) (by rw [List.length_set]; split <;> omega),
            List.take_set_of_le behind]

end KcnTools.Protocols
