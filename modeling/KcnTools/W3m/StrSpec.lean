import KcnTools.W3m.Str

/-! What each string operation does to the bytes in use, and what it needs for it. -/

namespace KcnTools.W3m

open Cache (wrapInt)

structure Holds (s : Str) (bytes : List UInt8) : Prop where
  prefixed : ∃ left, s.ptr = bytes ++ left
  length : s.length = bytes.length
  area : s.areaSize = s.ptr.length

structure Represents (s : Str) (bytes : List UInt8) : Prop where
  terminated : ∃ left, s.ptr = bytes ++ 0 :: left
  length : s.length = bytes.length
  area : s.areaSize = s.ptr.length

theorem Represents.holds {s : Str} {bytes : List UInt8} (repr : Represents s bytes) : Holds s bytes := by
  obtain ⟨left, shape⟩ := repr.terminated
  exact ⟨⟨0 :: left, shape⟩, repr.length, repr.area⟩

theorem Represents.room {s : Str} {bytes : List UInt8} (repr : Represents s bytes) :
    (bytes.length : Int) + 1 ≤ s.areaSize := by
  obtain ⟨left, shape⟩ := repr.terminated
  rw [repr.area, shape, List.length_append, List.length_cons]
  omega

def lengthMax : Nat := 357913940

theorem wrapInt_small {value : Int} (lower : 0 ≤ value) (upper : value < 2147483648) :
    wrapInt value = value := by
  rw [wrapInt]
  omega

theorem malloc_length (junk : Nat → UInt8) {size : Int} (positive : 0 ≤ size) :
    ((malloc junk size).length : Int) = size := by
  rw [malloc, List.length_map, List.length_range]
  omega

theorem write_start (block source : List UInt8) (fits : source.length ≤ block.length) :
    Buffer.write block 0 source = some (source ++ block.drop source.length) := by
  rw [Buffer.write_eq_some (by omega) (by omega)]
  simp

theorem write_behind (bytes left source : List UInt8) (fits : source.length ≤ left.length) :
    Buffer.write (bytes ++ left) bytes.length source = some (bytes ++ (source ++ left.drop source.length)) := by
  have split : left = left.take source.length ++ left.drop source.length :=
    (List.take_append_drop source.length left).symm
  have written := @Buffer.write_append _ bytes (left.take source.length) source
    (left.drop source.length) (by rw [List.length_take]; omega)
  rwa [← split] at written

theorem read_start (bytes left : List UInt8) : Buffer.read (bytes ++ left) 0 bytes.length = some bytes := by
  have found := Buffer.read_append [] bytes left
  simpa using found

theorem Holds.read {s : Str} {bytes : List UInt8} (holds : Holds s bytes) :
    Buffer.read s.ptr 0 s.length = some bytes := by
  obtain ⟨left, shape⟩ := holds.prefixed
  rw [shape, holds.length]
  exact read_start _ _

theorem Holds.append {s : Str} {bytes : List UInt8} (holds : Holds s bytes) (more : List UInt8)
    (room : (bytes.length : Int) + more.length + 1 ≤ s.areaSize) :
    ∃ first second, Buffer.write s.ptr s.length more = some first ∧
      Buffer.write first (s.length + more.length) [0] = some second ∧
      Represents { s with ptr := second, length := s.length + more.length } (bytes ++ more) := by
  obtain ⟨left, shape⟩ := holds.prefixed
  have enough : more.length + 1 ≤ left.length := by
    have area := holds.area
    rw [shape, List.length_append] at area
    omega
  have first := write_behind bytes left more (by omega)
  have second := write_behind (bytes ++ more) (left.drop more.length) [0]
    (by rw [List.length_drop]; simp; omega)
  refine ⟨_, bytes ++ more ++ ([0] ++ (left.drop more.length).drop 1),
    by rw [shape, holds.length]; exact first, ?_, ⟨_, rfl⟩, ?_, ?_⟩
  · rw [holds.length, ← List.append_assoc]
    simpa using second
  · simp [holds.length]
  · rw [holds.area, shape]
    simp only [List.length_append, List.length_drop, List.length_cons, List.length_nil]
    omega

def grown (n : Nat) : Nat := if n * 6 / 5 = n then n + 2 else n * 6 / 5

theorem strgrow_spec (junk : Nat → UInt8) {s : Str} {bytes : List UInt8} (holds : Holds s bytes)
    (small : bytes.length ≤ lengthMax) :
    ∃ after, strgrow junk s = some after ∧ Holds after bytes ∧ after.areaSize = grown bytes.length := by
  have product : wrapInt (s.length * 6) / 5 = ((bytes.length * 6 / 5 : Nat) : Int) := by
    rw [holds.length, wrapInt_small (by omega) (by rw [lengthMax] at small; omega)]
    omega
  have size : (if wrapInt (s.length * 6) / 5 = s.length then wrapInt (s.length * 6) / 5 + 2
      else wrapInt (s.length * 6) / 5) = (grown bytes.length : Int) := by
    rw [product, holds.length, grown]
    split <;> split <;> omega
  have enough : bytes.length ≤ (malloc junk (grown bytes.length)).length := by
    have length := malloc_length junk (show (0 : Int) ≤ grown bytes.length by omega)
    have larger : bytes.length ≤ grown bytes.length := by
      rw [grown]
      split <;> omega
    omega
  refine ⟨{ s with ptr := bytes ++ (malloc junk (grown bytes.length)).drop bytes.length,
                   areaSize := grown bytes.length }, ?_, ?_, rfl⟩
  · rw [strgrow]
    simp only [size, holds.read, write_start _ _ enough, Option.bind_eq_bind, Option.bind_some]
  · refine ⟨⟨_, rfl⟩, holds.length, ?_⟩
    have length := malloc_length junk (show (0 : Int) ≤ grown bytes.length by omega)
    simp only [List.length_append, List.length_drop]
    omega

/-- Whether `count` bytes can be added one by one to `length` bytes in a block of `area`. -/
def Fits (length : Nat) (area : Int) (count : Nat) : Prop :=
  (length : Int) + count < area ∨ 11 ≤ area ∨ length + count ≤ 5

def areaAfter (length : Nat) (area : Int) : Int := if length + 1 < area then area else grown length

theorem fits_succ {length : Nat} {area : Int} (room : (length : Int) + 1 ≤ area) (count : Nat) :
    Fits length area (count + 1) ↔ Fits length area 1 ∧ Fits (length + 1) (areaAfter length area) count := by
  rw [Fits, Fits, Fits, areaAfter, grown]
  split
  · omega
  · split <;> omega

theorem growth_spec (junk : Nat → UInt8) {s : Str} {bytes : List UInt8} (repr : Represents s bytes)
    (small : bytes.length ≤ lengthMax) (full : Prop) [Decidable full]
    (when : full ↔ s.areaSize ≤ bytes.length + 1) :
    ∃ larger, growWhen junk full s = some larger ∧ Holds larger bytes ∧
      larger.areaSize = areaAfter bytes.length s.areaSize := by
  have room := repr.room
  rw [areaAfter, growWhen]
  split
  next tight =>
    rw [when] at tight
    obtain ⟨larger, grew, holds, area⟩ := strgrow_spec junk repr.holds small
    exact ⟨larger, grew, holds, by rw [if_neg (by omega), area]⟩
  next wide =>
    rw [when] at wide
    exact ⟨s, rfl, repr.holds, by rw [if_pos (by omega)]⟩

theorem le_areaAfter {length : Nat} {area : Int} (room : (length : Int) + 1 ≤ area) :
    area ≤ areaAfter length area := by
  rw [areaAfter, grown]
  split
  · omega
  · split <;> omega

theorem areaAfter_fits {length : Nat} {area : Int} (room : (length : Int) + 1 ≤ area) :
    Fits length area 1 ↔ (length : Int) + 2 ≤ areaAfter length area := by
  rw [Fits, areaAfter, grown]
  split
  · omega
  · split <;> omega

/-- A byte behind the ones in use. Where it does not fit, the NUL is written behind the block. -/
theorem strcatChar_spec (junk : Nat → UInt8) {s : Str} {bytes : List UInt8} (repr : Represents s bytes)
    (small : bytes.length ≤ lengthMax) (c : UInt8) :
    (Fits bytes.length s.areaSize 1 → ∃ after, strcatChar junk s c = some after ∧
      Represents after (bytes ++ [c]) ∧ after.areaSize = areaAfter bytes.length s.areaSize) ∧
    (¬ Fits bytes.length s.areaSize 1 → strcatChar junk s c = none) := by
  obtain ⟨larger, grew, holds, area⟩ := growth_spec junk repr small
    (s.length + 1 ≥ s.areaSize) (by rw [repr.length])
  rw [areaAfter_fits repr.room, ← area, strcatChar, grew]
  simp only [Option.bind_eq_bind, Option.bind_some]
  constructor
  · intro fits
    obtain ⟨first, second, written, ended, after⟩ := holds.append [c]
      (by simp; omega)
    simp only [List.length_singleton, Int.natCast_one] at ended after
    rw [written, Option.bind_some, ended, Option.bind_some]
    exact ⟨_, rfl, after, rfl⟩
  · intro tight
    cases written : Buffer.write larger.ptr larger.length [c] with
    | none => rfl
    | some ptr =>
        have length := Buffer.write_length written
        have size := holds.area
        rw [Option.bind_some, Buffer.write_none (by rw [length, holds.length]; simp; omega)]
        rfl

theorem strcatChars_spec (junk : Nat → UInt8) {s : Str} {bytes : List UInt8} (repr : Represents s bytes)
    (cs : List UInt8) (small : bytes.length + cs.length ≤ lengthMax)
    (fits : Fits bytes.length s.areaSize cs.length) :
    ∃ after, strcatChars junk s cs = some after ∧ Represents after (bytes ++ cs) ∧
      s.areaSize ≤ after.areaSize := by
  induction cs generalizing s bytes with
  | nil => exact ⟨s, rfl, by rwa [List.append_nil], Int.le_refl _⟩
  | cons c cs ih =>
      rw [List.length_cons] at small
      rw [List.length_cons, fits_succ repr.room] at fits
      obtain ⟨next, added, represents, area⟩ := (strcatChar_spec junk repr (by omega) c).1 fits.1
      obtain ⟨after, rest, final, larger⟩ := ih represents (by simp; omega) (by
        rw [area, List.length_append]
        exact fits.2)
      have room := repr.room
      rw [area] at larger
      refine ⟨after, ?_, by simpa using final, Int.le_trans (le_areaAfter room) larger⟩
      rw [strcatChars, List.foldlM_cons, added]
      exact rest

theorem strnewSize_spec (junk : Nat → UInt8) (n : Nat) :
    ∃ after, strnewSize junk n = some after ∧ Represents after [] ∧ after.areaSize = n + 1 := by
  have length := malloc_length junk (show (0 : Int) ≤ (n : Int) + 1 by omega)
  have written := write_start (malloc junk ((n : Int) + 1)) [0] (by simp; omega)
  refine ⟨⟨[0] ++ (malloc junk ((n : Int) + 1)).drop 1, 0, n + 1⟩, ?_, ⟨⟨_, rfl⟩, rfl, ?_⟩, rfl⟩
  · rw [strnewSize, written]
    rfl
  · simp only [List.length_append, List.length_cons, List.length_nil, List.length_drop]
    omega

theorem strnew_spec (junk : Nat → UInt8) :
    ∃ after, strnew junk = some after ∧ Represents after [] ∧ after.areaSize = 32 :=
  strnewSize_spec junk 31

theorem roomFor_area (junk : Nat → UInt8) {x : Str} {bytes : List UInt8} (repr : Represents x bytes)
    (size : Int) (positive : 0 ≤ size) :
    (roomFor junk x size).areaSize = (roomFor junk x size).ptr.length ∧
      size ≤ (roomFor junk x size).areaSize := by
  rw [roomFor]
  split
  next => exact ⟨(malloc_length junk positive).symm, Int.le_refl size⟩
  next large => exact ⟨repr.area, by omega⟩

theorem represents_written {ptr : List UInt8} {area : Int} (size : area = ptr.length) (bytes : List UInt8)
    (fits : (bytes.length : Int) + 1 ≤ area) :
    ∃ after, Buffer.write ptr 0 (bytes ++ [0]) = some after ∧ Represents ⟨after, bytes.length, area⟩ bytes := by
  have written := write_start ptr (bytes ++ [0]) (by simp; omega)
  refine ⟨_, written, ⟨_, by rw [List.append_assoc]; rfl⟩, rfl, ?_⟩
  rw [size]
  simp only [List.length_append, List.length_drop, List.length_cons, List.length_nil]
  omega

theorem strcopy_spec (junk : Nat → UInt8) {x y : Str} {bytes source : List UInt8} (repr : Represents x bytes)
    (other : Represents y source) : ∃ after, strcopy junk x y = some after ∧ Represents after source ∧
      (x.areaSize ≤ after.areaSize) := by
  obtain ⟨left, shape⟩ := other.terminated
  have read : Buffer.read y.ptr 0 (y.length + 1) = some (source ++ [0]) := by
    have found := read_start (source ++ [0]) left
    rw [shape, other.length]
    simpa using found
  have area := roomFor_area junk repr (y.length + 1) (by rw [other.length]; omega)
  obtain ⟨after, written, represents⟩ := represents_written area.1 source (by
    have room := area.2
    have length := other.length
    omega)
  refine ⟨{ roomFor junk x (y.length + 1) with ptr := after, length := y.length }, ?_, ?_, ?_⟩
  · rw [strcopy, read]
    simp only [Option.bind_eq_bind, Option.bind_some, written]
  · rw [other.length]
    rw [other.length] at represents
    exact represents
  · change x.areaSize ≤ (roomFor junk x (y.length + 1)).areaSize
    rw [roomFor]
    split
    · exact Int.le_of_lt ‹_›
    · exact Int.le_refl _

theorem strdup_spec (junk : Nat → UInt8) {s : Str} {bytes : List UInt8} (repr : Represents s bytes) :
    ∃ after, strdup junk s = some after ∧ Represents after bytes := by
  obtain ⟨fresh, made, empty, _⟩ := strnewSize_spec junk bytes.length
  obtain ⟨after, copied, represents, _⟩ := strcopy_spec junk empty repr
  refine ⟨after, ?_, represents⟩
  rw [strdup, repr.length, made]
  exact copied

theorem catRoom_spec (junk : Nat → UInt8) {x : Str} {bytes : List UInt8} (repr : Represents x bytes)
    {n : Nat} (small : bytes.length + n ≤ lengthMax) :
    ∃ larger, catRoom junk x (x.length + n + 1) = some larger ∧ Holds larger bytes ∧
      (bytes.length : Int) + n + 1 ≤ larger.areaSize ∧ x.areaSize ≤ larger.areaSize := by
  have room := repr.room
  rw [catRoom]
  split
  next =>
    have product : wrapInt ((x.length + n + 1) * 3) / 2 = (((bytes.length + n + 1) * 3 / 2 : Nat) : Int) := by
      rw [repr.length, wrapInt_small (by omega) (by rw [lengthMax] at small; omega)]
      omega
    have length := malloc_length junk (show (0 : Int) ≤ (((bytes.length + n + 1) * 3 / 2 : Nat) : Int) by omega)
    have written := write_start
      (malloc junk (((bytes.length + n + 1) * 3 / 2 : Nat) : Int)) bytes (by omega)
    simp only [product, repr.holds.read, written, Option.bind_eq_bind, Option.bind_some]
    refine ⟨_, rfl, ⟨⟨_, rfl⟩, repr.length, ?_⟩, ?_, ?_⟩
    · simp only [List.length_append, List.length_drop]
      omega
    · simp only
      omega
    · have length := repr.length
      simp only
      omega
  next large =>
    rw [repr.length] at large
    exact ⟨x, rfl, repr.holds, by omega, Int.le_refl _⟩

theorem strcatCharpN_spec (junk : Nat → UInt8) {x : Str} {bytes y : List UInt8} (repr : Represents x bytes)
    {n : Nat} (long : n ≤ y.length) (small : bytes.length + n ≤ lengthMax) :
    ∃ after, strcatCharpN junk x (some y) n = some after ∧ Represents after (bytes ++ y.take n) ∧
      x.areaSize ≤ after.areaSize := by
  have length : (y.take n).length = n := by rw [List.length_take]; omega
  have read : Buffer.read y 0 n = some (y.take n) := by
    have found := read_start (y.take n) (y.drop n)
    rwa [List.take_append_drop, length] at found
  obtain ⟨larger, grew, holds, enough, area⟩ := catRoom_spec junk repr small
  obtain ⟨first, second, written, ended, after⟩ := holds.append (y.take n) (by rw [length]; exact enough)
  rw [length] at ended after
  refine ⟨_, ?_, after, area⟩
  rw [strcatCharpN, grew]
  simp only [Option.bind_eq_bind, Option.bind_some, read, written, ended]

theorem read_byte {before after : List UInt8} {c : UInt8} {position : Int}
    (place : position = before.length) : Buffer.read (before ++ c :: after) position 1 = some [c] := by
  rw [place]
  exact Buffer.read_append before [c] after

theorem write_byte {before after : List UInt8} {old c : UInt8} {position : Int}
    (place : position = before.length) :
    Buffer.write (before ++ old :: after) position [c] = some (before ++ c :: after) := by
  rw [place]
  exact @Buffer.write_append _ before [old] _ after rfl

theorem shiftUp_spec (before : List UInt8) (moved : List UInt8) (last : UInt8) (after : List UInt8) :
    ∃ first, shiftUp (before ++ (moved ++ last :: after)) before.length moved.length =
      some (before ++ first :: (moved ++ after)) := by
  induction moved using List.reverseRecOn generalizing last after with
  | nil => exact ⟨last, rfl⟩
  | append_singleton moved c ih =>
      obtain ⟨first, shifted⟩ := ih c (c :: after)
      refine ⟨first, ?_⟩
      have read : Buffer.read (before ++ moved ++ c :: last :: after) (before.length + moved.length) 1 =
          some [c] := read_byte (by simp)
      have written : Buffer.write (before ++ moved ++ [c] ++ last :: after)
          (before.length + moved.length + 1) [c] = some (before ++ moved ++ [c] ++ c :: after) :=
        write_byte (by simp; omega)
      simp only [List.append_assoc, List.cons_append, List.nil_append] at read written shifted ⊢
      rw [List.length_append, List.length_singleton, shiftUp, read]
      simp only [Option.bind_eq_bind, Option.bind_some, written]
      exact shifted

theorem shiftUp_length {ptr after : List UInt8} {pos : Int} {count : Nat}
    (shifted : shiftUp ptr pos count = some after) : after.length = ptr.length := by
  induction count generalizing ptr with
  | zero =>
      rw [shiftUp, Option.some.injEq] at shifted
      rw [shifted]
  | succ count ih =>
      rw [shiftUp] at shifted
      simp only [Option.bind_eq_bind, Option.bind_eq_some_iff] at shifted
      obtain ⟨c, _, next, written, rest⟩ := shifted
      rw [ih rest, Buffer.write_length written]

def inserted (bytes : List UInt8) (pos : Nat) (p : List UInt8) : List UInt8 :=
  if pos ≤ bytes.length then bytes.take pos ++ (p ++ bytes.drop pos) else bytes

theorem inserted_length (bytes : List UInt8) (pos : Nat) (p : List UInt8) :
    (inserted bytes pos p).length ≤ bytes.length + p.length := by
  rw [inserted]
  split
  · simp
    omega
  · omega

theorem inserted_cons (bytes : List UInt8) (pos : Nat) (c : UInt8) (p : List UInt8) :
    inserted (inserted bytes pos [c]) (pos + 1) p = inserted bytes pos (c :: p) := by
  rw [inserted, inserted, inserted]
  split
  next inside =>
    have length : (bytes.take pos).length = pos := by rw [List.length_take]; omega
    have split : bytes.take pos ++ ([c] ++ bytes.drop pos) = (bytes.take pos ++ [c]) ++ bytes.drop pos :=
      (List.append_assoc _ _ _).symm
    have place : pos + 1 = (bytes.take pos ++ [c]).length := by rw [List.length_append, length]; rfl
    rw [if_pos (by simp; omega), split, place, List.take_left, List.drop_left]
    simp
  next outside => rw [if_neg (by omega)]

theorem strinsertChar_spec (junk : Nat → UInt8) {s : Str} {bytes : List UInt8} (repr : Represents s bytes)
    (small : bytes.length ≤ lengthMax) {pos : Nat} (inside : pos ≤ bytes.length) (c : UInt8) :
    (Fits bytes.length s.areaSize 1 → ∃ after, strinsertChar junk s pos c = some after ∧
      Represents after (inserted bytes pos [c]) ∧ after.areaSize = areaAfter bytes.length s.areaSize) ∧
    (¬ Fits bytes.length s.areaSize 1 → strinsertChar junk s pos c = none) := by
  obtain ⟨larger, grew, holds, area⟩ := growth_spec junk repr small
    (s.length + 2 > s.areaSize) (by rw [repr.length]; omega)
  rw [areaAfter_fits repr.room, ← area, strinsertChar, if_neg (by rw [repr.length]; omega), grew]
  simp only [Option.bind_eq_bind, Option.bind_some]
  have count : (larger.length - pos).toNat = (bytes.drop pos).length := by
    rw [holds.length, List.length_drop]
    omega
  rw [count]
  obtain ⟨left, shape⟩ := holds.prefixed
  have size := holds.area
  rw [shape, List.length_append] at size
  constructor
  · intro fits
    obtain ⟨x, y, left, rfl⟩ : ∃ x y rest, left = x :: y :: rest := by
      match left, size with
      | [], size => simp at size; omega
      | [_], size => simp at size; omega
      | x :: y :: rest, _ => exact ⟨x, y, rest, rfl⟩
    have place : ((bytes.take pos).length : Int) = pos := by rw [List.length_take]; omega
    obtain ⟨first, shifted⟩ := shiftUp_spec (bytes.take pos) (bytes.drop pos) x (y :: left)
    rw [← List.append_assoc, List.take_append_drop, place] at shifted
    have ended : Buffer.write (bytes.take pos ++ first :: bytes.drop pos ++ y :: left) (larger.length + 1) [0] =
        some (bytes.take pos ++ first :: bytes.drop pos ++ 0 :: left) :=
      write_byte (by rw [holds.length]; simp; omega)
    have written : Buffer.write (bytes.take pos ++ first :: (bytes.drop pos ++ 0 :: left)) pos [c] =
        some (bytes.take pos ++ c :: (bytes.drop pos ++ 0 :: left)) := write_byte place.symm
    simp only [List.append_assoc, List.cons_append] at ended
    rw [shape, shifted, Option.bind_some, ended, Option.bind_some, written, Option.bind_some]
    refine ⟨_, rfl, ⟨⟨left, ?_⟩, ?_, ?_⟩, rfl⟩
    · rw [inserted, if_pos inside]
      simp
    · rw [inserted, if_pos inside, holds.length]
      simp
      omega
    · rw [holds.area, shape]
      simp
      omega
  · intro tight
    cases shifted : shiftUp larger.ptr pos (bytes.drop pos).length with
    | none => rfl
    | some ptr =>
        have length := shiftUp_length shifted
        have area := holds.area
        rw [Option.bind_some, Buffer.write_none (by rw [length, holds.length]; simp; omega)]
        rfl

theorem strinsertChar_outside (junk : Nat → UInt8) {s : Str} {bytes : List UInt8} (repr : Represents s bytes)
    {pos : Nat} (outside : ¬ pos ≤ bytes.length) (c : UInt8) : strinsertChar junk s pos c = some s := by
  rw [strinsertChar, if_pos]
  right
  rw [repr.length]
  omega

theorem strinsertCharp_spec (junk : Nat → UInt8) {s : Str} {bytes : List UInt8} (repr : Represents s bytes)
    (p : List UInt8) (small : bytes.length + p.length ≤ lengthMax) (pos : Nat) :
    (pos ≤ bytes.length → Fits bytes.length s.areaSize p.length) ↔
      ∃ after, strinsertCharp junk s pos p = some after ∧ Represents after (inserted bytes pos p) := by
  induction p generalizing s bytes pos with
  | nil =>
      refine iff_of_true (fun _ => ?_) ⟨s, rfl, ?_⟩
      · have room := repr.room
        exact .inl (by simp; omega)
      · rw [inserted]
        split
        · simpa using repr
        · exact repr
  | cons c p ih =>
      rw [List.length_cons] at small
      have next : ((pos : Int) + 1) = ((pos + 1 : Nat) : Int) := rfl
      rw [strinsertCharp, next]
      by_cases inside : pos ≤ bytes.length
      · obtain ⟨fit, overflow⟩ := strinsertChar_spec junk repr (by omega) inside c
        rw [List.length_cons, fits_succ repr.room]
        by_cases fits : Fits bytes.length s.areaSize 1
        · obtain ⟨middle, added, represents, area⟩ := fit fits
          have length : (inserted bytes pos [c]).length = bytes.length + 1 := by
            rw [inserted, if_pos inside]
            simp
            omega
          have later := ih represents (by omega) (pos + 1)
          rw [length, area, inserted_cons] at later
          simp only [added, Option.bind_eq_bind, Option.bind_some]
          rw [← later]
          exact ⟨fun both _ => (both inside).2, fun rest _ => ⟨fits, rest (by omega)⟩⟩
        · rw [overflow fits]
          refine iff_of_false (fun both => fits (both inside).1) ?_
          rintro ⟨after, added, _⟩
          exact absurd added (by simp)
      · rw [strinsertChar_outside junk repr inside]
        have later := ih repr (by omega) (pos + 1)
        simp only [Option.bind_eq_bind, Option.bind_some]
        rw [inserted, if_neg (by omega)] at later
        rw [inserted, if_neg inside, ← later]
        exact ⟨fun _ both => absurd both (by omega), fun _ both => absurd both inside⟩

theorem strtruncate_spec {s : Str} {bytes : List UInt8} (repr : Represents s bytes) {pos : Nat}
    (inside : pos ≤ bytes.length) :
    ∃ after, strtruncate s pos = some after ∧ Represents after (bytes.take pos) := by
  obtain ⟨left, shape⟩ := repr.terminated
  obtain ⟨old, rest, split⟩ := List.exists_cons_of_ne_nil
    (show bytes.drop pos ++ 0 :: left ≠ [] by simp)
  have length : (bytes.take pos).length = pos := by rw [List.length_take]; omega
  have whole : s.ptr = bytes.take pos ++ old :: rest := by
    rw [shape, ← split, ← List.append_assoc, List.take_append_drop]
  have written : Buffer.write s.ptr pos [0] = some (bytes.take pos ++ 0 :: rest) := by
    rw [whole]
    exact write_byte (by rw [length])
  refine ⟨_, by rw [strtruncate, written]; rfl, ⟨rest, rfl⟩, by rw [length], ?_⟩
  rw [repr.area, whole]
  simp

theorem shiftDown_spec (before gap moved after : List UInt8) :
    ∃ left, left.length = gap.length ∧
      shiftDown (before ++ (gap ++ (moved ++ after))) before.length gap.length moved.length =
        some (before ++ (moved ++ (left ++ after))) := by
  induction moved generalizing before gap with
  | nil => exact ⟨gap, rfl, rfl⟩
  | cons c moved ih =>
      obtain ⟨old, rest, split⟩ := List.exists_cons_of_ne_nil (show gap ++ [c] ≠ [] by simp)
      have same : rest.length = gap.length := by
        have lengths := congrArg List.length split
        simpa using lengths.symm
      obtain ⟨left, length, shifted⟩ := ih (before ++ [c]) rest
      refine ⟨left, by rw [length, same], ?_⟩
      have whole : before ++ (gap ++ (c :: moved ++ after)) = before ++ old :: (rest ++ (moved ++ after)) := by
        rw [← List.cons_append, ← split]
        simp
      have read : Buffer.read (before ++ (gap ++ (c :: moved ++ after))) (before.length + gap.length) 1 =
          some [c] := by
        rw [← List.append_assoc]
        exact read_byte (by simp)
      have written : Buffer.write (before ++ old :: (rest ++ (moved ++ after))) before.length [c] =
          some (before ++ c :: (rest ++ (moved ++ after))) := write_byte rfl
      rw [List.length_cons, shiftDown, read]
      simp only [Option.bind_eq_bind, Option.bind_some]
      rw [whole, written]
      simpa [same] using shifted

theorem strdelete_spec {s : Str} {bytes : List UInt8} (repr : Represents s bytes) {pos : Nat}
    (inside : pos ≤ bytes.length) (n : Nat) :
    ∃ after, strdelete s pos n = some after ∧ Represents after (bytes.take pos ++ bytes.drop (pos + n)) := by
  rw [strdelete]
  split
  next all =>
    rw [repr.length] at all
    rw [List.drop_eq_nil_of_le (by omega), List.append_nil]
    exact strtruncate_spec repr inside
  next some_ =>
    rw [repr.length] at some_
    obtain ⟨zeroes, shape⟩ := repr.terminated
    have start : (bytes.take pos).length = pos := by rw [List.length_take]; omega
    have gap : ((bytes.drop pos).take n).length = n := by rw [List.length_take, List.length_drop]; omega
    have moved : (bytes.drop (pos + n)).length = (s.length - n - pos).toNat := by
      rw [repr.length, List.length_drop]
      omega
    have split : bytes = bytes.take pos ++ ((bytes.drop pos).take n ++ bytes.drop (pos + n)) := by
      rw [← List.drop_drop, List.take_append_drop, List.take_append_drop]
    have whole : s.ptr = bytes.take pos ++ ((bytes.drop pos).take n ++ (bytes.drop (pos + n) ++ 0 :: zeroes)) := by
      rw [shape]
      conv_lhs => rw [split]
      rw [List.append_assoc, List.append_assoc]
    obtain ⟨left, length, shifted⟩ := shiftDown_spec (bytes.take pos) ((bytes.drop pos).take n)
      (bytes.drop (pos + n)) (0 :: zeroes)
    rw [← whole, start, gap, moved] at shifted
    obtain ⟨old, rest, ends⟩ := List.exists_cons_of_ne_nil (show left ++ 0 :: zeroes ≠ [] by simp)
    have written : Buffer.write (bytes.take pos ++ bytes.drop (pos + n) ++ old :: rest) (s.length - n) [0] =
        some (bytes.take pos ++ bytes.drop (pos + n) ++ 0 :: rest) :=
      write_byte (by rw [repr.length]; simp; omega)
    rw [shifted]
    simp only [Option.bind_eq_bind, Option.bind_some]
    rw [ends, ← List.append_assoc, written]
    refine ⟨_, rfl, ⟨rest, rfl⟩, ?_, ?_⟩
    · rw [repr.length]
      simp
      omega
    · have lengths := congrArg List.length ends
      rw [repr.area, whole]
      simp at lengths ⊢
      omega

theorem strshrink_spec {s : Str} {bytes : List UInt8} (repr : Represents s bytes) (n : Nat) :
    ∃ after, strshrink s n = some after ∧ Represents after (bytes.take (bytes.length - n)) := by
  rw [strshrink, repr.length]
  split
  next all =>
    have none : bytes.length - n = 0 := by omega
    rw [none]
    exact strtruncate_spec repr (Nat.zero_le _)
  next some_ =>
    have length : (bytes.length : Int) - n = ((bytes.length - n : Nat) : Int) := by omega
    rw [length]
    exact strtruncate_spec repr (Nat.sub_le _ _)

/-- The loop of `Strchop` looks in front of a string that has nothing but line ends. -/
theorem chopFrom_spec (bytes after : List UInt8) :
    chopFrom (bytes ++ after) bytes.length =
      if bytes.all isEol then none else some (bytes.rdropWhile isEol).length := by
  induction bytes using List.reverseRecOn generalizing after with
  | nil => rfl
  | append_singleton bytes c ih =>
      have read : Buffer.read (bytes ++ [c] ++ after) ((bytes ++ [c]).length - 1) 1 = some [c] := by
        rw [List.append_assoc]
        exact read_byte (by simp)
      rw [chopFrom, read, List.length_append, List.length_singleton, List.rdropWhile_concat]
      simp only [Option.bind_eq_bind, Option.bind_some, List.all_cons, List.all_nil, Bool.and_true,
        List.all_append]
      by_cases ends : isEol c = true
      · rw [if_pos ends, if_pos ends, ends, Bool.and_true, List.append_assoc]
        exact ih ([c] ++ after)
      · rw [if_neg ends, if_neg ends, if_neg (by simp [ends])]
        simp

theorem rdropWhile_take (p : UInt8 → Bool) (bytes : List UInt8) :
    bytes.take (bytes.rdropWhile p).length = bytes.rdropWhile p ∧
      (bytes.rdropWhile p).length ≤ bytes.length := by
  have found := List.rdropWhile_prefix p bytes
  exact ⟨(List.prefix_iff_eq_take.mp found).symm, found.length_le⟩

theorem strchop_spec {s : Str} {bytes : List UInt8} (repr : Represents s bytes) :
    ¬ bytes.all isEol = true ↔
      ∃ after, strchop s = some after ∧ Represents after (bytes.rdropWhile isEol) := by
  obtain ⟨left, shape⟩ := repr.terminated
  have length : s.length.toNat = bytes.length := by rw [repr.length]; rfl
  rw [strchop, length, shape, chopFrom_spec]
  split
  next all =>
    refine iff_of_false (by simp [all]) ?_
    rintro ⟨after, chopped, _⟩
    exact absurd chopped (by simp)
  next some_ =>
    refine iff_of_true some_ ?_
    obtain ⟨kept, shorter⟩ := rdropWhile_take isEol bytes
    obtain ⟨after, truncated, represents⟩ := strtruncate_spec repr shorter
    rw [kept] at represents
    rw [strtruncate, shape] at truncated
    exact ⟨after, truncated, represents⟩

theorem leadingSpaces_spec (before bytes after : List UInt8) :
    leadingSpaces (before ++ (bytes ++ after)) before.length bytes.length =
      some (bytes.takeWhile isSpace).length := by
  induction bytes generalizing before with
  | nil => rfl
  | cons c bytes ih =>
      have read : Buffer.read (before ++ (c :: bytes ++ after)) before.length 1 = some [c] := read_byte rfl
      rw [List.length_cons, leadingSpaces, read, List.takeWhile_cons]
      simp only [Option.bind_eq_bind, Option.bind_some, List.all_cons, List.all_nil, Bool.and_true]
      split
      next =>
        have later := ih (before ++ [c])
        simp only [List.append_assoc, List.cons_append, List.nil_append, List.length_append,
          List.length_singleton, Int.natCast_add, Int.natCast_one] at later ⊢
        rw [later]
        rfl
      next => rfl

theorem strremovefirstspaces_spec {s : Str} {bytes : List UInt8} (repr : Represents s bytes) :
    ∃ after, strremovefirstspaces s = some after ∧ Represents after (bytes.dropWhile isSpace) := by
  obtain ⟨left, shape⟩ := repr.terminated
  have length : s.length.toNat = bytes.length := by rw [repr.length]; rfl
  have found : leadingSpaces s.ptr 0 bytes.length = some (bytes.takeWhile isSpace).length := by
    rw [shape]
    exact leadingSpaces_spec [] bytes (0 :: left)
  have dropped : bytes.dropWhile isSpace = bytes.drop (bytes.takeWhile isSpace).length := by
    have left := @List.drop_left _ (bytes.takeWhile isSpace) (bytes.dropWhile isSpace)
    rw [List.takeWhile_append_dropWhile] at left
    exact left.symm
  rw [strremovefirstspaces, length, found, dropped]
  simp only [Option.bind_eq_bind, Option.bind_some]
  split
  next none =>
    rw [none]
    exact ⟨s, rfl, repr⟩
  next =>
    obtain ⟨after, deleted, represents⟩ := strdelete_spec repr (Nat.zero_le _) (bytes.takeWhile isSpace).length
    rw [List.take_zero, List.nil_append, Nat.zero_add] at represents
    exact ⟨after, deleted, represents⟩

theorem trimmedLength_spec (bytes after : List UInt8) :
    trimmedLength (bytes ++ after) bytes.length = some (bytes.rdropWhile isSpace).length := by
  induction bytes using List.reverseRecOn generalizing after with
  | nil => rfl
  | append_singleton bytes c ih =>
      have read : Buffer.read (bytes ++ [c] ++ after) bytes.length 1 = some [c] := by
        rw [List.append_assoc]
        exact read_byte rfl
      rw [List.length_append, List.length_singleton, trimmedLength, read, List.rdropWhile_concat]
      simp only [Option.bind_eq_bind, Option.bind_some, List.all_cons, List.all_nil, Bool.and_true]
      split
      next =>
        rw [List.append_assoc]
        exact ih ([c] ++ after)
      next => simp

theorem strremovetrailingspaces_spec {s : Str} {bytes : List UInt8} (repr : Represents s bytes) :
    ∃ after, strremovetrailingspaces s = some after ∧ Represents after (bytes.rdropWhile isSpace) := by
  obtain ⟨left, shape⟩ := repr.terminated
  have length : s.length.toNat = bytes.length := by rw [repr.length]; rfl
  have found : trimmedLength s.ptr bytes.length = some (bytes.rdropWhile isSpace).length := by
    rw [shape]
    exact trimmedLength_spec bytes (0 :: left)
  obtain ⟨kept, shorter⟩ := rdropWhile_take isSpace bytes
  obtain ⟨after, truncated, represents⟩ := strtruncate_spec repr shorter
  rw [kept] at represents
  rw [strremovetrailingspaces, length, found]
  exact ⟨after, truncated, represents⟩

theorem strnewCharp_spec (junk : Nat → UInt8) (p : CString) :
    ∃ after, strnewCharp junk (some p) = some after ∧ Represents after p.bytes := by
  have length := malloc_length junk (show (0 : Int) ≤ (p.bytes.length : Int) + 1 by omega)
  obtain ⟨ptr, written, represents⟩ := represents_written length.symm p.bytes (by omega)
  refine ⟨_, ?_, represents⟩
  rw [strnewCharp, written]
  simp

theorem writes_spec {ptr : List UInt8} {area : Int} (size : area = ptr.length) {p : List UInt8} {n : Nat}
    (long : n ≤ p.length) (fits : (n : Int) + 1 ≤ area) :
    ∃ first second, Buffer.read p 0 n = some (p.take n) ∧ Buffer.write ptr 0 (p.take n) = some first ∧
      Buffer.write first n [0] = some second ∧ Represents ⟨second, n, area⟩ (p.take n) := by
  have length : (p.take n).length = n := by rw [List.length_take]; omega
  have read : Buffer.read p 0 n = some (p.take n) := by
    have found := read_start (p.take n) (p.drop n)
    rwa [List.take_append_drop, length] at found
  have empty : Holds ⟨ptr, 0, area⟩ [] := ⟨⟨ptr, rfl⟩, rfl, size⟩
  obtain ⟨first, second, written, ended, after⟩ := empty.append (p.take n) (by rw [length]; simpa using fits)
  simp only [length, Int.zero_add, List.nil_append] at written ended after
  exact ⟨first, second, read, written, ended, after⟩

theorem strnewCharpN_spec (junk : Nat → UInt8) {p : List UInt8} {n : Nat} (long : n ≤ p.length) :
    ∃ after, strnewCharpN junk (some p) n = some after ∧ Represents after (p.take n) := by
  have length := malloc_length junk (show (0 : Int) ≤ (n : Int) + 1 by omega)
  obtain ⟨first, second, read, written, ended, after⟩ := writes_spec length.symm long (Int.le_refl _)
  refine ⟨_, ?_, after⟩
  rw [strnewCharpN, read]
  simp only [Option.bind_eq_bind, Option.bind_some, written, ended]

theorem strcopyCharp_spec (junk : Nat → UInt8) {x : Str} {bytes : List UInt8} (repr : Represents x bytes)
    (y : CString) : ∃ after, strcopyCharp junk x (some y) = some after ∧ Represents after y.bytes := by
  have area := roomFor_area junk repr ((y.bytes.length : Int) + 1) (by omega)
  obtain ⟨after, written, represents⟩ := represents_written area.1 y.bytes area.2
  refine ⟨_, ?_, represents⟩
  rw [strcopyCharp]
  simp only [written, Option.bind_eq_bind, Option.bind_some]

theorem strcopyCharpN_spec (junk : Nat → UInt8) {x : Str} {bytes : List UInt8} (repr : Represents x bytes)
    {y : List UInt8} {n : Nat} (long : n ≤ y.length) :
    ∃ after, strcopyCharpN junk x (some y) n = some after ∧ Represents after (y.take n) := by
  have area := roomFor_area junk repr ((n : Int) + 1) (by omega)
  obtain ⟨first, second, read, written, ended, after⟩ := writes_spec area.1 long area.2
  refine ⟨_, ?_, after⟩
  rw [strcopyCharpN, read]
  simp only [Option.bind_eq_bind, Option.bind_some, written, ended]

/-- A copy of no string keeps the bytes of the old one: it has a NUL only where the old one starts
with one. -/
theorem copied_null {x : Str} {bytes : List UInt8} (repr : Represents x bytes) :
    bytes.headD 0 = 0 ↔ Represents { x with length := 0 } [] := by
  obtain ⟨left, shape⟩ := repr.terminated
  constructor
  · intro zero
    refine ⟨?_, rfl, repr.area⟩
    cases bytes with
    | nil => exact ⟨left, shape⟩
    | cons c bytes =>
        rw [List.headD_cons] at zero
        rw [zero] at shape
        exact ⟨bytes ++ 0 :: left, shape⟩
  · intro empty
    obtain ⟨other, found⟩ := empty.terminated
    rw [shape] at found
    cases bytes with
    | nil => rfl
    | cons c bytes => exact (List.cons.inj found).1

theorem strcatCharp_spec (junk : Nat → UInt8) {x : Str} {bytes : List UInt8} (repr : Represents x bytes)
    (y : CString) (small : bytes.length + y.bytes.length ≤ lengthMax) :
    ∃ after, strcatCharp junk x (some y) = some after ∧ Represents after (bytes ++ y.bytes) := by
  obtain ⟨after, added, represents, _⟩ := strcatCharpN_spec junk repr (Nat.le_refl y.bytes.length) small
  rw [List.take_length] at represents
  exact ⟨after, added, represents⟩

theorem strcatMCharp_spec (junk : Nat → UInt8) {x : Str} {bytes : List UInt8} (repr : Represents x bytes)
    (ps : List CString) (small : bytes.length + (ps.flatMap (·.bytes)).length ≤ lengthMax) :
    ∃ after, strcatMCharp junk x ps = some after ∧ Represents after (bytes ++ ps.flatMap (·.bytes)) := by
  induction ps generalizing x bytes with
  | nil => exact ⟨x, rfl, by simpa using repr⟩
  | cons p ps ih =>
      rw [List.flatMap_cons, List.length_append] at small
      obtain ⟨next, added, represents⟩ := strcatCharp_spec junk repr p (by omega)
      obtain ⟨after, rest, final⟩ := ih represents (by rw [List.length_append]; omega)
      refine ⟨after, ?_, by simpa using final⟩
      rw [strcatMCharp, List.foldlM_cons, added]
      exact rest

theorem strnewMCharp_spec (junk : Nat → UInt8) (ps : List CString)
    (small : (ps.flatMap (·.bytes)).length ≤ lengthMax) :
    ∃ after, strnewMCharp junk ps = some after ∧ Represents after (ps.flatMap (·.bytes)) := by
  obtain ⟨fresh, made, empty, _⟩ := strnew_spec junk
  obtain ⟨after, added, represents⟩ := strcatMCharp_spec junk empty ps (by simpa using small)
  refine ⟨after, ?_, by simpa using represents⟩
  rw [strnewMCharp, made]
  exact added

theorem strcat_spec (junk : Nat → UInt8) {x y : Str} {bytes source : List UInt8} (repr : Represents x bytes)
    (other : Represents y source) (small : bytes.length + source.length ≤ lengthMax) (same : Bool) :
    (¬ (same = true ∧ x.areaSize < bytes.length + source.length + 1) →
      ∃ after, strcat junk same x y = some after ∧ Represents after (bytes ++ source) ∧
        x.areaSize ≤ after.areaSize) ∧
    (same = true ∧ x.areaSize < bytes.length + source.length + 1 → strcat junk same x y = none) := by
  obtain ⟨left, shape⟩ := other.terminated
  have length : y.length.toNat = source.length := by rw [other.length]; rfl
  rw [strcat, repr.length, other.length]
  constructor
  · intro safe
    obtain ⟨after, added, represents, area⟩ := strcatCharpN_spec junk repr (y := y.ptr) (n := source.length)
      (by rw [shape]; simp) small
    rw [shape, List.take_left] at represents
    rw [if_neg safe]
    exact ⟨after, by simpa using added, represents, area⟩
  · intro freed
    exact if_pos freed

theorem strsubstr_spec (junk : Nat → UInt8) {s : Str} {bytes : List UInt8} (repr : Represents s bytes)
    (small : bytes.length ≤ lengthMax) (beg len : Nat) :
    ∃ after, strsubstr junk s beg len = some after ∧ Represents after ((bytes.drop beg).take len) := by
  obtain ⟨fresh, made, empty, area⟩ := strnew_spec junk
  rw [strsubstr, made]
  simp only [Option.bind_eq_bind, Option.bind_some]
  rw [repr.length]
  split
  next outside =>
    rw [List.drop_eq_nil_of_le (by omega), List.take_nil]
    exact ⟨fresh, rfl, empty⟩
  next inside =>
    obtain ⟨left, shape⟩ := repr.terminated
    have before : (bytes.take beg).length = beg := by rw [List.length_take]; omega
    have count : min (len : Int) (bytes.length - beg) = ((bytes.drop beg).take len).length := by
      rw [List.length_take, List.length_drop]
      omega
    have whole : bytes ++ 0 :: left = bytes.take beg ++ ((bytes.drop beg).take len ++
        ((bytes.drop beg).drop len ++ 0 :: left)) := by
      rw [← List.append_assoc (List.take len _), List.take_append_drop, ← List.append_assoc,
        List.take_append_drop]
    have read : Buffer.read s.ptr beg (min (len : Int) (bytes.length - beg)) =
        some ((bytes.drop beg).take len) := by
      have found := Buffer.read_append (bytes.take beg) ((bytes.drop beg).take len)
        ((bytes.drop beg).drop len ++ 0 :: left)
      rw [before] at found
      rw [count, shape, whole]
      exact found
    have few : ((bytes.drop beg).take len).length ≤ bytes.length := by
      rw [List.length_take, List.length_drop]
      omega
    obtain ⟨after, added, represents, _⟩ := strcatChars_spec junk empty ((bytes.drop beg).take len)
      (by rw [List.length_nil]; omega) (.inr (.inl (by rw [area]; omega)))
    rw [read, Option.bind_some]
    exact ⟨after, added, by simpa using represents⟩

theorem padded_spec (junk : Nat → UInt8) {s : Str} {bytes : List UInt8} (repr : Represents s bytes)
    (count : Nat) {width : Nat} (area : (width : Int) + 1 ≤ s.areaSize) (fits : bytes.length + count ≤ width)
    (small : width ≤ lengthMax) {n : Int} (same : n = count) :
    ∃ after, strcatChars junk s (blanks n) = some after ∧
      Represents after (bytes ++ List.replicate count 32) ∧ s.areaSize ≤ after.areaSize := by
  subst same
  have length : (blanks count).length = count := by rw [blanks, List.length_replicate]; rfl
  exact strcatChars_spec junk repr (blanks count) (by omega) (.inl (by omega))

def aligned (bytes : List UInt8) (width left : Nat) : List UInt8 :=
  if width ≤ bytes.length then bytes
  else List.replicate left 32 ++ bytes ++ List.replicate (width - bytes.length - left) 32

section
variable (junk : Nat → UInt8) {s : Str} {bytes : List UInt8} (repr : Represents s bytes) {width : Nat}
  (small : width ≤ lengthMax)
include repr small

theorem stralignLeft_spec : ∃ after, stralignLeft junk s width = some after ∧
    Represents after (aligned bytes width 0) := by
  rw [stralignLeft, aligned, repr.length]
  split
  next wide =>
    rw [if_pos (by omega)]
    exact strdup_spec junk repr
  next narrow =>
    obtain ⟨fresh, made, empty, area⟩ := strnewSize_spec junk width
    obtain ⟨copy, copied, represents, larger⟩ := strcopy_spec junk empty repr
    obtain ⟨after, padded, final, _⟩ := padded_spec junk represents (n := (width : Int) - bytes.length)
      (width - bytes.length) (by omega) (Nat.add_sub_of_le (by omega)).le small (by omega)
    rw [if_neg (by omega), made]
    simp only [Option.bind_eq_bind, Option.bind_some, copied]
    exact ⟨after, padded, by simpa using final⟩

theorem stralignRight_spec : ∃ after, stralignRight junk s width = some after ∧
    Represents after (aligned bytes width (width - bytes.length)) := by
  rw [stralignRight, aligned, repr.length]
  split
  next wide =>
    rw [if_pos (by omega)]
    exact strdup_spec junk repr
  next narrow =>
    obtain ⟨fresh, made, empty, area⟩ := strnewSize_spec junk width
    obtain ⟨blank, padded, represents, _⟩ := padded_spec junk empty (n := (width : Int) - bytes.length)
      (width - bytes.length) (by omega) (by simp) small (by omega)
    obtain ⟨after, added, final, _⟩ := (strcat_spec junk represents repr (by simp; omega) false).1 (by simp)
    rw [if_neg (by omega), made]
    simp only [Option.bind_eq_bind, Option.bind_some, padded]
    exact ⟨after, added, by simpa using final⟩

theorem stralignCenter_spec : ∃ after, stralignCenter junk s width = some after ∧
    Represents after (aligned bytes width ((width - bytes.length) / 2)) := by
  rw [stralignCenter, aligned, repr.length]
  split
  next wide =>
    rw [if_pos (by omega)]
    exact strdup_spec junk repr
  next narrow =>
    obtain ⟨fresh, made, empty, area⟩ := strnewSize_spec junk width
    obtain ⟨blank, padded, represents, larger⟩ := padded_spec junk empty
      (n := ((width : Int) - bytes.length) / 2) ((width - bytes.length) / 2)
      (by omega) (by simp; omega) small (by omega)
    obtain ⟨middle, added, represents, wider⟩ :=
      (strcat_spec junk represents repr (by simp; omega) false).1 (by simp)
    obtain ⟨after, padded', final, _⟩ := padded_spec junk represents
      (n := (width : Int) - (((width : Int) - bytes.length) / 2 + bytes.length))
      (width - bytes.length - (width - bytes.length) / 2) (by omega) (by simp; omega) small (by omega)
    rw [if_neg (by omega), made]
    simp only [Option.bind_eq_bind, Option.bind_some, padded, added]
    exact ⟨after, padded', by simpa using final⟩

end

end KcnTools.W3m
