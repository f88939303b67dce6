import KcnTools.W3m.LineEdits

/-! Runs of the line editor. The conditions are the lines and cursors at which an
operation stays in strProp and strBuf and does not stop inside a character. -/

namespace KcnTools.W3m.Linein

open Libwc (Wc)

structure ControlKey where
  code : UInt8
  control : code < 0x20

/-- The editing operations; what `wc_char_conv` hands to `ins_char` is whole characters. -/
inductive Operation (w : Wc)
  | insChar (str : List (Letter w))
  | insertself (key : ControlKey)
  | delC
  | bs
  | bsw
  | mvL
  | mvR
  | mvLw
  | mvRw
  | mvB
  | mvE
  | killn
  | killb
  | prev
  | next

section
variable (w : Wc) (convert : List UInt8 → List UInt8)

def step (s : LineInput) : Operation w → Option LineInput
  | .insChar str => insChar w s (textOf str)
  | .insertself key => insertself s key.code
  | .delC => delC s
  | .bs => bs s
  | .bsw => bsw s
  | .mvL => mvL s
  | .mvR => mvR s
  | .mvLw => mvLw s
  | .mvRw => mvRw s
  | .mvB => some (mvB s)
  | .mvE => some (mvE s)
  | .killn => killn s
  | .killb => killb s
  | .prev => prev convert w s
  | .next => next convert w s

def Loadable (text : List UInt8) : Prop :=
  text.length ≤ strLen ∧ ∃ letters : List (Letter w), text = textOf letters

/-- The bytes in front of the cursor, the nearest first, as the characters that `_bs`
erases: how many bytes each has, and the byte in front of it. `bytes` counts those of
the first one that are already seen. -/
def charsBefore : Nat → List (UInt8 × Lineprop) → List (Nat × Option UInt8)
  | bytes, [] => if bytes = 0 then [] else [(bytes, none)]
  | bytes, (_, prop) :: cells =>
      if isWchar2 prop then charsBefore (bytes + 1) cells
      else (bytes + 1, cells.head?.map Prod.fst) :: charsBefore 0 cells

def joinedBehind (s : LineInput) (pos : Int) : Nat :=
  (((s.strProp.take s.cLen.toNat).drop pos.toNat).takeWhile isWchar2).length

def charsInFront (s : LineInput) : List (Nat × Option UInt8) :=
  if s.cPos = 0 then []
  else charsBefore (joinedBehind s s.cPos) ((s.strBuf.zip s.strProp).take s.cPos.toNat).reverse

/-- Each character that is erased is no longer than what strProp has behind the text, and
where words are erased one that is not at the beginning of the line ends the word. -/
def EraseFits (word : Bool) : Int → List (Nat × Option UInt8) → Prop
  | _, [] => True
  | cLen, (size, ahead) :: more =>
      cLen + size ≤ strLen ∧ (word = true → ahead ≠ none) ∧
        ((word = true → ∀ c ∈ ahead, terminated c = false) → EraseFits word (cLen - size) more)

def nextEntry (s : LineInput) : Option (List UInt8 × Hist) := do
  let hist ← s.currentHist
  let _ ← s.strCurrentBuf
  nextHist hist

def StopsBehind (s : LineInput) (pos : Int) : Prop := ∃ c, s.charAt (pos - 1) = some c ∧ terminated c = true

/-- The places that `_mvLw` comes to in word mode: it goes on from one unless a delimiter ends there. -/
inductive ReachedLeft (s : LineInput) : Int → Prop
  | start : ReachedLeft s s.cPos
  | step {pos : Int} {wide : Bool} : ReachedLeft s pos → 0 < pos → (pos < s.cPos → ¬ StopsBehind s pos) →
      wideAt s (0 < pos - 1) (pos - 1) = some wide → ReachedLeft s (if wide then pos - 1 - 1 else pos - 1)

inductive ReachedRight (s : LineInput) : Int → Prop
  | start : ReachedRight s s.cPos
  | step {pos : Int} {wide : Bool} : ReachedRight s pos → pos < s.cLen → (s.cPos < pos → ¬ StopsBehind s pos) →
      wideAt s (pos + 1 < s.cLen) (pos + 1) = some wide → ReachedRight s (if wide then pos + 1 + 1 else pos + 1)

def Condition (s : LineInput) : Operation w → Prop
  | .insertself _ => s.cLen + 1 ≠ strLen
  | .delC => s.cPos = s.cLen ∨ s.cLen + (joinedBehind s (s.cPos + 1) + 1) ≤ strLen
  | .bs => EraseFits false s.cLen ((charsInFront s).take 1)
  | .bsw => EraseFits s.moveWord s.cLen (charsInFront s)
  | .killb => EraseFits false s.cLen (charsInFront s)
  | .mvLw =>
      if s.moveWord then
        ∀ pos, ReachedLeft s pos → 0 < pos → pos < s.cPos → StopsBehind s pos → Boundary w s.strBuf pos
      else s.cPos = 0 ∨ Boundary w s.strBuf (s.cPos - 1) ∨ Boundary w s.strBuf (s.cPos - 2)
  | .mvRw =>
      if s.moveWord then
        ∀ pos, ReachedRight s pos → s.cPos < pos → pos < s.cLen → StopsBehind s pos → Boundary w s.strBuf pos
      else s.cPos = s.cLen ∨ ∃ c, s.charAt s.cPos = some c ∧
        (getMclen w c = 2 ∨ getMclen w c = 1 ∧ joinedBehind s (s.cPos + 1) = 0)
  | .prev => ∀ entry ∈ prevEntry s, Loadable w (shownEntry convert s entry.1)
  | .next => ∀ entry ∈ nextEntry s, Loadable w (shownEntry convert s entry.1)
  | _ => True

structure Consistent (s : LineInput) : Prop where
  inside : 0 ≤ s.cPos ∧ s.cPos ≤ s.cLen
  length : s.cLen = s.strBuf.length
  bounded : s.cLen ≤ strLen
  room : s.strProp.length = strLen
  typed : ∀ prop : List Lineprop, prop.length = strLen → ∃ typed,
    setStrType w s.isPasswd s.strBuf prop = some (s.cLen, typed) ∧
      typed.take s.cLen.toNat = s.strProp.take s.cLen.toNat
  whole : Boundary w s.strBuf s.cPos

end

section Kept

variable {w : Wc}

def Sized (before after : List (Letter w)) (room : List Lineprop) : Prop :=
  (textOf before).length + ((textOf after).length + room.length) = strLen

/-- A line of whole characters with the cursor between two of them; the line that the
history prompt keeps is one that can be loaded. -/
structure Kept (w : Wc) (s : LineInput) : Prop where
  shown : ∃ (before after : List (Letter w)) (room : List Lineprop),
    s = s.show before after room ∧ Sized before after room
  saved : s.currentHist.isSome → ∀ text ∈ s.strCurrentBuf, Loadable w text

theorem Kept.show {s : LineInput} (kept : Kept w s) {before after : List (Letter w)} {room : List Lineprop}
    (sized : Sized before after room) : Kept w (s.show before after room) :=
  ⟨⟨before, after, room, rfl, sized⟩, kept.saved⟩

theorem Kept.consistent {s : LineInput} (kept : Kept w s) : Consistent w s := by
  obtain ⟨before, after, room, same, sized⟩ := kept.shown
  have bound := Boundary.of_letters before after
  have front := propsOf_length s.isPasswd before
  have back := propsOf_length s.isPasswd after
  rw [Sized] at sized
  rw [same]
  constructor
  all_goals simp only [LineInput.show, LineInput.split, List.length_append, front, back]
  · omega
  · omega
  · omega
  · intro prop size
    have typed := setStrType_letters s.isPasswd (before ++ after)
      (by rw [textOf_append, List.length_append]; omega) size
    rw [textOf_append, List.length_append] at typed
    refine ⟨_, typed, ?_⟩
    have all : (propsOf s.isPasswd (before ++ after)).length = (textOf before).length + (textOf after).length := by
      rw [propsOf_length, textOf_append, List.length_append]
    rw [Int.toNat_natCast, ← List.append_assoc, ← propsOf_append, List.take_left' all, List.take_left' all]
  · exact bound

theorem Kept.mvB {s : LineInput} (kept : Kept w s) : Kept w (mvB s) := by
  obtain ⟨before, after, room, same, sized⟩ := kept.shown
  refine ⟨⟨[], before ++ after, room, ?_, ?_⟩, kept.saved⟩
  · rw [same]
    simp [Linein.mvB, LineInput.show, LineInput.split]
  · rw [Sized] at sized ⊢
    rw [textOf_append, List.length_append, textOf_nil, List.length_nil]
    omega

theorem Kept.mvE {s : LineInput} (kept : Kept w s) : Kept w (mvE s) := by
  obtain ⟨before, after, room, same, sized⟩ := kept.shown
  refine ⟨⟨before ++ after, [], room, ?_, ?_⟩, kept.saved⟩
  · rw [same]
    simp [Linein.mvE, LineInput.show, LineInput.split]
  · rw [Sized] at sized ⊢
    rw [textOf_append, List.length_append, textOf_nil, List.length_nil]
    omega

theorem Kept.moved {s : LineInput} (kept : Kept w s) {pos : Int} (bound : Boundary w s.strBuf pos) :
    Kept w { s with cPos := pos } := by
  obtain ⟨before, after, room, same, sized⟩ := kept.shown
  have text : s.strBuf = textOf (before ++ after) := by
    rw [same, textOf_append]
    rfl
  rw [text] at bound
  obtain ⟨front, back, parts, place⟩ := bound.split
  have size := congrArg (fun letters => (textOf letters).length) parts
  have props := congrArg (propsOf s.isPasswd) parts
  simp only [textOf_append, List.length_append, propsOf_append] at size props
  refine ⟨⟨front, back, room, ?_, ?_⟩, kept.saved⟩
  · have shape : s.show front back room = { s.show before after room with cPos := (textOf front).length } := by
      simp only [LineInput.show, LineInput.split, ← List.append_assoc, ← textOf_append, ← propsOf_append, parts]
      rw [← size]
    rw [place]
    exact (congrArg (fun s : LineInput => { s with cPos := (textOf front).length }) same).trans shape.symm
  · rw [Sized] at sized ⊢
    omega

theorem killn_kept {s : LineInput} (kept : Kept w s) : ∃ next, killn s = some next ∧ Kept w next := by
  obtain ⟨before, after, room, same, sized⟩ := kept.shown
  refine ⟨s.show before [] (propsOf s.isPasswd after ++ room), ?_, kept.show (w := w) ?_⟩
  · have ended : { s with cLen := s.cPos }.truncate s.cPos =
        { s.show before after room with cLen := (textOf before).length }.truncate (textOf before).length :=
      congrArg (fun s' : LineInput => { s' with cLen := s'.cPos }.truncate s'.cPos) same
    have inside : (0 : Int) ≤ (textOf before).length ∧
        ((textOf before).length : Int) ≤ (textOf before ++ textOf after).length := by
      rw [List.length_append]
      omega
    rw [killn, ended, LineInput.truncate, LineInput.show, LineInput.split, if_pos inside, Int.toNat_natCast,
      List.take_left]
    simp [LineInput.show, LineInput.split]
  · rw [Sized] at sized ⊢
    rw [List.length_append, propsOf_length, textOf_nil, List.length_nil]
    omega

theorem load_kept {s : LineInput} (size : s.strProp.length = strLen) {text : List UInt8} (loadable : Loadable w text)
    (saved : s.currentHist.isSome → ∀ text ∈ s.strCurrentBuf, Loadable w text) :
    ∃ next, s.load w text = some next ∧ Kept w next := by
  obtain ⟨fits, letters, rfl⟩ := loadable
  have typed := setStrType_letters s.isPasswd letters fits size
  refine ⟨s.show letters [] (s.strProp.drop (textOf letters).length), ?_, ⟨letters, [], _, rfl, ?_⟩, saved⟩
  · rw [LineInput.load, typed]
    simp [LineInput.show, LineInput.split]
  · rw [Sized, List.length_drop, size, textOf_nil, List.length_nil]
    omega

theorem insChar_kept {s : LineInput} (kept : Kept w s) (letters : List (Letter w)) :
    ∃ next, insChar w s (textOf letters) = some next ∧ Kept w next := by
  rw [insChar]
  split
  next full => exact ⟨s, rfl, kept⟩
  next fits =>
    obtain ⟨before, after, room, same, sized⟩ := kept.shown
    have length : s.cLen = ((textOf before).length + (textOf after).length : Nat) := by
      rw [same]
      rfl
    rw [Sized] at sized
    obtain ⟨first, spare, rfl⟩ : ∃ first rest, room = first :: rest := List.exists_cons_of_length_pos (by omega)
    rw [List.length_cons] at sized
    have count : (spare.take (textOf letters).length).length = (textOf letters).length := by
      rw [List.length_take]
      omega
    have inserted := insChars_show s letters before after first (spare.drop (textOf letters).length) count
    rw [List.take_append_drop, ← same] at inserted
    refine ⟨_, inserted, kept.show ?_⟩
    rw [Sized, textOf_append, List.length_append, List.length_cons, List.length_drop]
    omega

theorem insertself_kept {s : LineInput} (kept : Kept w s) (key : ControlKey) (below : s.cLen + 1 ≠ strLen) :
    ∃ next, insertself s key.code = some next ∧ Kept w next := by
  rw [insertself]
  split
  next full => exact ⟨s, rfl, kept⟩
  next fits =>
    obtain ⟨before, after, room, same, sized⟩ := kept.shown
    have length : s.cLen = ((textOf before).length + (textOf after).length : Nat) := by
      rw [same]
      rfl
    rw [Sized] at sized
    obtain ⟨first, second, spare, rfl⟩ : ∃ first second rest, room = first :: second :: rest := by
      match room, sized with
      | first :: second :: rest, _ => exact ⟨first, second, rest, rfl⟩
      | [_], sized => rw [List.length_singleton] at sized; omega
      | [], sized => rw [List.length_nil] at sized; omega
    obtain ⟨single, ctype⟩ := control_char w s.isPasswd key.control
    rw [← ctype]
    have inserted := insByte_split s key.code (charType w s.isPasswd key.code) first second spare
      (propsOf_length s.isPasswd before) (propsOf_length s.isPasswd after)
    have shape : s.split (textOf before ++ [key.code]) (textOf after)
        (propsOf s.isPasswd before ++ [charType w s.isPasswd key.code]) (propsOf s.isPasswd after) (first :: spare) =
          s.show (before ++ [⟨key.code, [], single.symm⟩]) after (first :: spare) := by
      simp [LineInput.show, textOf, propsOf, Letter.bytes, Letter.props]
    rw [shape] at inserted
    refine ⟨_, (congrArg (fun s' => insByte s' key.code (charType w s.isPasswd key.code)) same).trans inserted,
      kept.show ?_⟩
    rw [List.length_cons, List.length_cons] at sized
    rw [Sized, textOf_append, List.length_append, List.length_cons]
    simp only [textOf_cons, textOf_nil, Letter.bytes, List.length_append, List.length_cons, List.length_nil]
    omega

end Kept

section Erasing

variable {w : Wc} {isPasswd : Bool} (s : LineInput) {before after cluster wide rest : List (Letter w)}
  {room : List Lineprop}

theorem takeWhile_run {run back : List Lineprop} (wide : ∀ prop ∈ run, isWchar2 prop = true)
    (stop : back.head?.all (fun prop => !isWchar2 prop) = true) : (run ++ back).takeWhile isWchar2 = run := by
  rw [List.takeWhile_append_of_pos wide]
  cases back with
  | nil => simp
  | cons prop back =>
      have narrow : isWchar2 prop = false := by simpa using stop
      simp [narrow]

theorem joinedBehind_show (before after : List (Letter w)) (room : List Lineprop) (offset : Nat) :
    joinedBehind (s.show before after room) ((textOf before).length + offset) =
      (((propsOf s.isPasswd after).drop offset).takeWhile isWchar2).length := by
  have front := propsOf_length s.isPasswd before
  have all : (propsOf s.isPasswd before ++ propsOf s.isPasswd after).length =
      (textOf before).length + (textOf after).length := by
    rw [List.length_append, propsOf_length, propsOf_length]
  have place : (((textOf before).length : Int) + offset).toNat = (propsOf s.isPasswd before).length + offset := by omega
  simp only [joinedBehind, LineInput.show, LineInput.split, Int.toNat_natCast, place]
  rw [← List.append_assoc, List.take_left' all, ← List.drop_drop, List.drop_left]

theorem joinedBehind_combining (before : List (Letter w)) (room : List Lineprop) (isWide : Combining s.isPasswd wide)
    (starts : Starts s.isPasswd rest) :
    joinedBehind (s.show before (wide ++ rest) room) (textOf before).length = (textOf wide).length := by
  have joined := joinedBehind_show s before (wide ++ rest) room 0
  rw [Int.natCast_zero, Int.add_zero] at joined
  rw [joined, List.drop_zero, propsOf_append, takeWhile_run isWide starts, propsOf_length]

theorem joinedBehind_cluster (before : List (Letter w)) (room : List Lineprop)
    (isCluster : Cluster s.isPasswd cluster) (starts : Starts s.isPasswd rest) :
    joinedBehind (s.show before (cluster ++ rest) room) ((textOf before).length + 1) + 1 = (textOf cluster).length := by
  have joined := joinedBehind_show s before (cluster ++ rest) room 1
  have size := propsOf_length s.isPasswd cluster
  obtain ⟨first, run, props, inner⟩ := isCluster
  rw [Int.natCast_one] at joined
  rw [props, List.length_cons] at size
  rw [joined, propsOf_append, props, List.cons_append, List.drop_one, List.tail_cons, takeWhile_run inner starts, size]

theorem delC_kept {s : LineInput} (kept : Kept w s)
    (fits : s.cPos = s.cLen ∨ s.cLen + (joinedBehind s (s.cPos + 1) + 1) ≤ strLen) :
    ∃ next, delC s = some next ∧ Kept w next := by
  rcases fits with ending | fits
  · exact ⟨s, by rw [delC, if_pos ending.symm], kept⟩
  · obtain ⟨before, after, room, same, sized⟩ := kept.shown
    by_cases none : after = []
    · refine ⟨s, ?_, kept⟩
      rw [delC, same, none, if_pos]
      simp [LineInput.show, LineInput.split]
    · obtain ⟨cluster, rest, rfl, isCluster, starts⟩ := cluster_behind s.isPasswd none
      have joined := joinedBehind_cluster s before room isCluster starts
      have place : s.cPos = (textOf before).length := by
        rw [same]
        rfl
      have length : s.cLen = ((textOf before).length + (textOf (cluster ++ rest)).length : Nat) := by
        rw [same]
        rfl
      rw [← same, ← place] at joined
      rw [Sized, textOf_append, List.length_append] at sized
      rw [textOf_append, List.length_append] at length
      obtain ⟨spare, count, erased⟩ := delC_show s before room isCluster starts (by omega)
      rw [← same] at erased
      refine ⟨_, erased, kept.show ?_⟩
      rw [Sized]
      omega

theorem mvL_kept {s : LineInput} (kept : Kept w s) : ∃ next, mvL s = some next ∧ Kept w next := by
  obtain ⟨before, after, room, same, sized⟩ := kept.shown
  by_cases none : before = []
  · refine ⟨s, ?_, kept⟩
    rw [mvL, same, none, if_neg]
    simp [LineInput.show, LineInput.split]
  · obtain ⟨front, cluster, rfl, isCluster, starts⟩ := cluster_in_front s.isPasswd none
    have moved := mvL_show s after room isCluster starts
    rw [← same] at moved
    refine ⟨_, moved, kept.show ?_⟩
    rw [Sized, textOf_append, List.length_append] at sized ⊢
    omega

theorem mvR_kept {s : LineInput} (kept : Kept w s) : ∃ next, mvR s = some next ∧ Kept w next := by
  obtain ⟨before, after, room, same, sized⟩ := kept.shown
  by_cases none : after = []
  · refine ⟨s, ?_, kept⟩
    have ended : ¬ s.cPos < s.cLen ∧ (s.cLen - s.cPos).toNat = 0 := by
      rw [same, none]
      simp [LineInput.show, LineInput.split]
    rw [mvR, if_neg ended.1, ended.2]
    rfl
  · obtain ⟨cluster, rest, rfl, isCluster, starts⟩ := cluster_behind s.isPasswd none
    have moved := mvR_show s before room isCluster starts
    rw [← same] at moved
    refine ⟨_, moved, kept.show ?_⟩
    rw [Sized, textOf_append, List.length_append] at sized ⊢
    omega

def cellsOf (isPasswd : Bool) (letters : List (Letter w)) : List (UInt8 × Lineprop) :=
  ((textOf letters).zip (propsOf isPasswd letters)).reverse

theorem cellsOf_head (letters : List (Letter w)) :
    (cellsOf isPasswd letters).head?.map Prod.fst = (textOf letters).getLast? := by
  rw [cellsOf, ← List.head?_map, List.map_reverse, List.map_fst_zip (by rw [propsOf_length]), List.head?_reverse]

theorem charsBefore_run (bytes : Nat) {run : List (UInt8 × Lineprop)} (wide : ∀ cell ∈ run, isWchar2 cell.2 = true)
    (cells : List (UInt8 × Lineprop)) : charsBefore bytes (run ++ cells) = charsBefore (bytes + run.length) cells := by
  induction run generalizing bytes with
  | nil => rfl
  | cons cell run ih =>
      rw [List.forall_mem_cons] at wide
      rw [List.cons_append, charsBefore, if_pos wide.1, ih _ wide.2, List.length_cons]
      congr 1
      omega

theorem charsBefore_cluster (bytes : Nat) (isCluster : Cluster isPasswd cluster)
    (start : before = [] ∨ Starts isPasswd cluster) :
    charsBefore bytes (cellsOf isPasswd (before ++ cluster)) =
      (bytes + (textOf cluster).length, (textOf before).getLast?) :: charsBefore 0 (cellsOf isPasswd before) := by
  have size := propsOf_length isPasswd cluster
  obtain ⟨first, run, props, inner⟩ := isCluster
  rw [props, List.length_cons] at size
  obtain ⟨lead, more, text⟩ : ∃ lead more, textOf cluster = lead :: more := List.exists_cons_of_length_pos (by omega)
  rw [text, List.length_cons] at size ⊢
  have parts : cellsOf isPasswd (before ++ cluster) =
      (more.zip run).reverse ++ (lead, first) :: cellsOf isPasswd before := by
    rw [cellsOf, textOf_append, propsOf_append, List.zip_append (propsOf_length isPasswd before).symm, text, props,
      List.zip_cons_cons, List.reverse_append, List.reverse_cons, List.append_assoc, List.singleton_append]
    rfl
  have wide : ∀ cell ∈ (more.zip run).reverse, isWchar2 cell.2 = true := by
    intro cell inside
    rw [List.mem_reverse] at inside
    exact inner _ (List.of_mem_zip inside).2
  have count : bytes + ((more.zip run).reverse.length + 1) = bytes + (more.length + 1) := by
    rw [List.length_reverse, List.length_zip]
    omega
  rw [parts, charsBefore_run bytes wide, charsBefore]
  split
  next combining =>
    have none : before = [] := by
      refine start.resolve_right fun starts => ?_
      rw [Starts, props, List.head?_cons, Option.all_some, combining] at starts
      cases starts
    subst none
    have cells : cellsOf isPasswd ([] : List (Letter w)) = [] := rfl
    rw [cells, charsBefore, charsBefore, if_neg (Nat.succ_ne_zero _), Nat.add_assoc, count]
    rfl
  next narrow => rw [cellsOf_head, Nat.add_assoc, count]

theorem charsInFront_show (room : List Lineprop) (isWide : Combining s.isPasswd wide)
    (starts : Starts s.isPasswd rest) (present : before ≠ []) :
    charsInFront (s.show before (wide ++ rest) room) =
      charsBefore (textOf wide).length (cellsOf s.isPasswd before) := by
  have joined := joinedBehind_combining s before room isWide starts
  have apart : ¬ ((textOf before).length : Int) = 0 := by
    obtain ⟨letter, letters, rfl⟩ := List.exists_cons_of_ne_nil present
    rw [textOf_cons, List.length_append, Letter.bytes_length]
    omega
  have front : ((textOf before).zip (propsOf s.isPasswd before)).length = (textOf before).length := by
    rw [List.length_zip, propsOf_length, Nat.min_self]
  have place : (s.show before (wide ++ rest) room).cPos = (textOf before).length := rfl
  rw [charsInFront, place, if_neg apart, joined]
  simp only [LineInput.show, LineInput.split, Int.toNat_natCast, List.zip_append
    (propsOf_length s.isPasswd before).symm,
    List.take_left' front]
  rfl

/-- What a character that is erased takes with it: the combining ones behind the cursor. -/
theorem bs_show (room : List Lineprop) (isCluster : Cluster s.isPasswd cluster)
    (start : before = [] ∨ Starts s.isPasswd cluster)
    (isWide : Combining s.isPasswd wide) (starts : Starts s.isPasswd rest)
    (fits : (textOf wide).length + (textOf cluster).length ≤ room.length) :
    ∃ spare, spare.length = room.length + ((textOf wide).length + (textOf cluster).length) ∧
      mvL (s.show (before ++ cluster) (wide ++ rest) room) = some (s.show before (cluster ++ wide ++ rest) room) ∧
      delC (s.show before (cluster ++ wide ++ rest) room) = some (s.show before rest spare) := by
  have size : (textOf (cluster ++ wide)).length = (textOf wide).length + (textOf cluster).length := by
    rw [textOf_append, List.length_append, Nat.add_comm]
  have moved := mvL_show s (wide ++ rest) room isCluster start
  obtain ⟨spare, count, erased⟩ := delC_show s before room
    (isCluster.append_combining isWide) starts (by omega)
  rw [← List.append_assoc] at moved
  exact ⟨spare, by rw [count, size], moved, erased⟩

/-- A character is erased in front of the cursor, and what is left fits as the whole did. -/
theorem erase_step (isWide : Combining s.isPasswd wide) (starts : Starts s.isPasswd rest)
    (sized : Sized before (wide ++ rest) room) (present : before ≠ []) {word : Bool}
    (fits : EraseFits word ((textOf before).length + (textOf (wide ++ rest)).length : Nat)
      (charsBefore (textOf wide).length (cellsOf s.isPasswd before))) :
    ∃ front moved spare, mvL (s.show before (wide ++ rest) room) = some (s.show front moved room) ∧
      delC (s.show front moved room) = some (s.show front rest spare) ∧ Sized front rest spare ∧
      (textOf front).length < (textOf before).length ∧ (word = true → (textOf front).getLast? ≠ none) ∧
      ((word = true → ∀ c ∈ (textOf front).getLast?, terminated c = false) →
        EraseFits word ((textOf front).length + (textOf rest).length : Nat)
        (charsBefore 0 (cellsOf s.isPasswd front))) := by
  obtain ⟨front, cluster, rfl, isCluster, start⟩ := cluster_in_front s.isPasswd present
  have occupied : 0 < (textOf cluster).length := by
    obtain ⟨first, run, props, _⟩ := isCluster
    rw [← propsOf_length s.isPasswd, props, List.length_cons]
    omega
  rw [charsBefore_cluster _ isCluster start, EraseFits] at fits
  obtain ⟨room', ahead, onward⟩ := fits
  rw [Sized, textOf_append, textOf_append, List.length_append, List.length_append] at sized
  rw [textOf_append, textOf_append, List.length_append, List.length_append] at room' onward
  obtain ⟨spare, count, moved, erased⟩ := bs_show s room isCluster start isWide starts (by omega)
  refine ⟨front, _, spare, moved, erased, ?_, ?_, ahead, fun going => ?_⟩
  · rw [Sized]
    omega
  · rw [textOf_append, List.length_append]
    omega
  · have left : (((textOf front).length + (textOf cluster).length + ((textOf wide).length + (textOf rest).length) :
    Nat) : Int) -
        ((textOf wide).length + (textOf cluster).length : Nat) =
          ((textOf front).length + (textOf rest).length : Nat) := by
      omega
    rw [← left]
    exact onward going

theorem show_cPos (present : before ≠ []) : 0 < (s.show before after room).cPos := by
  obtain ⟨letter, letters, rfl⟩ := List.exists_cons_of_ne_nil present
  show (0 : Int) < (textOf (letter :: letters)).length
  rw [textOf_cons, List.length_append, Letter.bytes_length]
  omega

theorem bs_erases {front moved : List (Letter w)} {spare : List Lineprop} (present : before ≠ [])
    (left : mvL (s.show before after room) = some (s.show front moved room))
    (erased : delC (s.show front moved room) = some (s.show front rest spare)) :
    bs (s.show before after room) = some (s.show front rest spare) := by
  rw [bs, if_pos (show_cPos s present), left]
  exact erased

theorem bs_kept {s : LineInput} (kept : Kept w s) (fits : EraseFits false s.cLen ((charsInFront s).take 1)) :
    ∃ next, bs s = some next ∧ Kept w next := by
  obtain ⟨before, after, room, same, sized⟩ := kept.shown
  by_cases none : before = []
  · refine ⟨s, ?_, kept⟩
    rw [bs, same, none, if_neg]
    simp [LineInput.show, LineInput.split]
  · obtain ⟨wide, rest, rfl, isWide, starts⟩ := combining_behind s.isPasswd after
    have chars := charsInFront_show s room isWide starts none
    rw [← same] at chars
    have length : s.cLen = ((textOf before).length + (textOf (wide ++ rest)).length : Nat) := by
      rw [same]
      rfl
    obtain ⟨front, cluster, rfl, isCluster, start⟩ := cluster_in_front s.isPasswd none
    rw [chars, length, charsBefore_cluster _ isCluster start, List.take_succ_cons, EraseFits] at fits
    rw [Sized, textOf_append, textOf_append, List.length_append, List.length_append] at sized
    rw [textOf_append, textOf_append, List.length_append, List.length_append] at fits
    obtain ⟨spare, count, moved, erased⟩ := bs_show s room isCluster start isWide starts (by omega)
    have ran := bs_erases s none moved erased
    rw [← same] at ran
    refine ⟨_, ran, kept.show ?_⟩
    rw [Sized]
    omega

theorem killbLoop_kept (rounds : Nat) (kept : Kept w s) (isWide : Combining s.isPasswd wide)
    (starts : Starts s.isPasswd rest)
    (sized : Sized before (wide ++ rest) room) (enough : (textOf before).length ≤ rounds)
    (fits : before ≠ [] → EraseFits false ((textOf before).length + (textOf (wide ++ rest)).length : Nat)
      (charsBefore (textOf wide).length (cellsOf s.isPasswd before))) :
    ∃ next, killbLoop (s.show before (wide ++ rest) room) rounds = some next ∧ Kept w next ∧ next.cPos = 0 := by
  induction rounds generalizing before wide room with
  | zero =>
      have none : (textOf before).length = 0 := by omega
      refine ⟨_, rfl, kept.show sized, ?_⟩
      show ((textOf before).length : Int) = 0
      rw [none]
      rfl
  | succ rounds ih =>
      rw [killbLoop]
      by_cases present : before = []
      · subst present
        exact ⟨_, if_neg (by simp [LineInput.show, LineInput.split]), kept.show sized, rfl⟩
      · obtain ⟨front, moved, spare, left, erased, sized', shorter, _, onward⟩ :=
          erase_step s isWide starts sized present (fits present)
        obtain ⟨next, ran, kept', ended⟩ := ih (show Combining s.isPasswd [] by simp [Combining])
          sized' (by omega) (fun _ => onward (by simp))
        refine ⟨next, ?_, kept', ended⟩
        rw [if_pos (show_cPos s present), bs_erases s present left erased]
        exact ran

theorem charAt_in_front {c : UInt8} (last : (textOf before).getLast? = some c) :
    (s.show before after room).charAt ((s.show before after room).cPos - 1) = some c := by
  obtain ⟨earlier, text⟩ := List.getLast?_eq_some_iff.mp last
  have got := Buffer.get_append earlier c (textOf after ++ [0])
  have place : ((earlier ++ [c]).length : Int) - 1 = earlier.length := by
    rw [List.length_append, List.length_singleton]
    omega
  simp only [LineInput.charAt, LineInput.show, LineInput.split, text, place, List.append_assoc, List.singleton_append]
  exact got

theorem bswLoop_kept (rounds : Nat) (kept : Kept w s) (isWide : Combining s.isPasswd wide)
    (starts : Starts s.isPasswd rest)
    (sized : Sized before (wide ++ rest) room) (enough : (textOf before).length ≤ rounds)
    (fits : before ≠ [] → EraseFits s.moveWord ((textOf before).length + (textOf (wide ++ rest)).length : Nat)
      (charsBefore (textOf wide).length (cellsOf s.isPasswd before))) :
    ∃ next, bswLoop (s.show before (wide ++ rest) room) rounds = some next ∧ Kept w next := by
  induction rounds generalizing before wide room with
  | zero => exact ⟨_, rfl, kept.show sized⟩
  | succ rounds ih =>
      rw [bswLoop]
      by_cases present : before = []
      · subst present
        exact ⟨_, if_neg (by simp [LineInput.show, LineInput.split]), kept.show sized⟩
      · obtain ⟨front, moved, spare, left, erased, sized', shorter, ahead, onward⟩ :=
          erase_step s isWide starts sized present (fits present)
        have mode : (s.show front moved room).moveWord = s.moveWord := rfl
        rw [if_pos (show_cPos s present), left]
        simp only [Option.bind_eq_bind, Option.bind_some, mode]
        by_cases word : s.moveWord = true
        · rw [if_pos word]
          obtain ⟨c, last⟩ := Option.ne_none_iff_exists'.mp (ahead word)
          rw [charAt_in_front s last, Option.map_eq_map, Option.map_some, Option.bind_some, erased, Option.bind_some]
          by_cases stops : terminated c = true
          · rw [if_pos stops]
            exact ⟨_, rfl, kept.show sized'⟩
          · rw [if_neg stops]
            refine ih (show Combining s.isPasswd [] by simp [Combining]) sized' (by omega) fun _ => ?_
            apply onward
            intro _ c' same
            rw [last, Option.mem_some_iff] at same
            rw [← same]
            exact Bool.eq_false_of_not_eq_true stops
        · rw [if_neg word, erased]
          exact ih (show Combining s.isPasswd [] by simp [Combining]) sized' (by omega)
            fun _ => onward fun isWord => absurd isWord word

end Erasing

end KcnTools.W3m.Linein
