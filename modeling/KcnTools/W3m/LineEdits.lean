import Mathlib.Data.List.Induction
import Mathlib.Data.List.TakeWhile
import KcnTools.W3m.LineText

/-! What the operations of the line editor do to a line that is split at its cursor.
Behind the types of the line strProp has `room` to spare. -/

namespace KcnTools.W3m.Linein

open Libwc (Wc)

section Props
/-! The loops over strProp. -/

theorem propsUp_shift (front mid : List Lineprop) (last : Lineprop) (rest : List Lineprop) :
    ∃ kept, propsUp (front ++ (mid ++ last :: rest)) front.length mid.length =
      some (front ++ kept :: (mid ++ rest)) := by
  induction mid using List.reverseRecOn generalizing last rest with
  | nil => exact ⟨last, rfl⟩
  | append_singleton mid value ih =>
      obtain ⟨kept, ran⟩ := ih value (value :: rest)
      have got := Buffer.get_append (front ++ mid) value (last :: rest)
      have put := Buffer.put_append (front ++ mid ++ [value]) last value rest
      simp only [List.length_append, List.length_singleton, Int.natCast_add, List.append_assoc,
        List.singleton_append, Int.natCast_one] at got put
      refine ⟨kept, ?_⟩
      rw [List.length_append, List.length_singleton, propsUp, List.append_assoc, List.singleton_append, got,
        Int.add_assoc]
      simp only [put, Option.bind_eq_bind, Option.bind_some, ran, List.append_assoc, List.singleton_append]

theorem skipWchar2_run {run : List Lineprop} (wide : ∀ prop ∈ run, isWchar2 prop = true)
    (front : List Lineprop) {rest : List Lineprop} {count : Nat} (long : run.length ≤ count)
    (stop : count = run.length ∨ ∃ prop more, rest = prop :: more ∧ isWchar2 prop = false) :
    skipWchar2 (front ++ (run ++ rest)) front.length count = some ((front.length + run.length : Nat) : Int) := by
  induction run generalizing front count with
  | nil =>
      cases count with
      | zero => rfl
      | succ count =>
          obtain ⟨prop, more, rfl, narrow⟩ := stop.resolve_left (by simp)
          rw [List.nil_append, skipWchar2, Buffer.get_append, Option.bind_eq_bind, Option.bind_some, narrow]
          rfl
  | cons prop run ih =>
      obtain ⟨count, rfl⟩ : ∃ fewer, count = fewer + 1 := ⟨count - 1, by rw [List.length_cons] at long; omega⟩
      rw [List.forall_mem_cons] at wide
      rw [List.length_cons] at long stop
      have onward := ih wide.2 (front ++ [prop]) (show run.length ≤ count by omega)
        (stop.imp_left (fun same => by omega))
      rw [List.append_assoc, List.singleton_append, List.length_append, List.length_singleton] at onward
      rw [List.cons_append, skipWchar2, Buffer.get_append, Option.bind_eq_bind, Option.bind_some, if_pos wide.1]
      rw [List.length_cons, Nat.add_comm run.length, ← Nat.add_assoc]
      exact onward

theorem propsDown_shift (front gone rest : List Lineprop) (present : gone ≠ []) {count : Nat}
    (fits : count ≤ rest.length) :
    ∃ tail, tail.length + count = gone.length + rest.length ∧
      propsDown (front ++ (gone ++ rest)) front.length gone.length count =
        some (front ++ (rest.take count ++ tail)) := by
  induction count generalizing front gone rest with
  | zero => exact ⟨gone ++ rest, by rw [List.length_append]; rfl, rfl⟩
  | succ count ih =>
      obtain ⟨first, gone, rfl⟩ := List.exists_cons_of_ne_nil present
      obtain ⟨next, rest, rfl⟩ : ∃ next more, rest = next :: more := List.exists_cons_of_length_pos (by omega)
      rw [List.length_cons] at fits
      obtain ⟨tail, size, ran⟩ := ih (front ++ [next]) (gone ++ [next]) rest (by simp) (by omega)
      have got := Buffer.get_append (front ++ first :: gone) next rest
      have put := Buffer.put_append front first next (gone ++ next :: rest)
      simp only [List.length_append, List.length_cons, List.length_nil, Nat.zero_add, List.append_assoc,
        List.cons_append, List.nil_append, Int.natCast_add, Int.natCast_one] at got ran size put ⊢
      refine ⟨tail, by omega, ?_⟩
      rw [propsDown]
      simp only [got, put, Option.bind_eq_bind, Option.bind_some, ran, List.take_succ_cons, List.cons_append]

theorem backWchar2_run {first : Lineprop} {run : List Lineprop} (wide : ∀ prop ∈ run, isWchar2 prop = true)
    {front : List Lineprop} (rest : List Lineprop) (start : front = [] ∨ isWchar2 first = false) :
    backWchar2 (front ++ (first :: (run ++ rest))) (front.length + run.length) = some front.length := by
  induction run using List.reverseRecOn generalizing rest with
  | nil =>
      rcases start with rfl | narrow
      · rfl
      · cases back : front.length with
        | zero => rfl
        | succ pos =>
            have got := Buffer.get_append front first rest
            rw [back] at got
            rw [List.nil_append, List.length_nil, Nat.add_zero, backWchar2, got, Option.bind_eq_bind, Option.bind_some,
              narrow]
            rfl
  | append_singleton run prop ih =>
      rw [List.forall_mem_append, List.forall_mem_singleton] at wide
      have got := Buffer.get_append (front ++ first :: run) prop rest
      simp only [List.length_append, List.length_cons, List.append_assoc, List.cons_append] at got
      rw [List.length_append, List.length_singleton, ← Nat.add_assoc, backWchar2]
      have onward := ih wide.1 (prop :: rest)
      simp only [List.append_assoc, List.singleton_append]
      rw [Nat.add_assoc, got, Option.bind_eq_bind, Option.bind_some, if_pos wide.2]
      exact onward

end Props

def LineInput.split (s : LineInput) (front back : List UInt8) (frontProp backProp room : List Lineprop) : LineInput :=
  { s with
    strBuf := front ++ back
    strProp := frontProp ++ (backProp ++ room)
    cPos := front.length
    cLen := (front.length + back.length : Nat) }

section Splits

variable (s : LineInput) {front back : List UInt8} {frontProp backProp room : List Lineprop}

theorem delete_middle (front gone back : List UInt8) (buf : s.strBuf = front ++ (gone ++ back)) :
    s.delete front.length gone.length = some { s with strBuf := front ++ back } := by
  have length : s.strBuf.length = front.length + (gone.length + back.length) := by
    rw [buf, List.length_append, List.length_append]
  have kept : s.strBuf.take front.length = front := by rw [buf, List.take_left]
  rw [LineInput.delete]
  split
  next ends =>
    have none : back = [] := List.eq_nil_of_length_eq_zero (by omega)
    rw [LineInput.truncate, if_pos ⟨by omega, by omega⟩, Int.toNat_natCast, kept, none, List.append_nil]
  next more =>
    have behind : s.strBuf.drop ((front.length : Int) + gone.length).toNat = back := by
      rw [buf, ← Int.natCast_add, Int.toNat_natCast, ← List.drop_drop, List.drop_left, List.drop_left]
    rw [if_pos ⟨by omega, by omega⟩, Int.toNat_natCast, kept, behind]

theorem skip_split {run : List Lineprop} (wide : ∀ prop ∈ run, isWchar2 prop = true)
    (stop : backProp.head?.all (fun prop => !isWchar2 prop) = true) (ahead room : List Lineprop) :
    skipWchar2 (ahead ++ (run ++ (backProp ++ room))) ahead.length (run.length + backProp.length) =
      some ((ahead.length + run.length : Nat) : Int) := by
  apply skipWchar2_run wide _ (by omega)
  cases backProp with
  | nil => exact .inl rfl
  | cons prop more =>
      rw [List.head?_cons, Option.all_some, Bool.not_eq_true'] at stop
      exact .inr ⟨prop, more ++ room, rfl, stop⟩

theorem insC_split (first second : Lineprop) (room : List Lineprop) (frontSize : frontProp.length = front.length)
    (backSize : backProp.length = back.length) :
    ∃ kept, insC (s.split front back frontProp backProp (first :: second :: room)) =
      some { s with
        strBuf := front ++ 0x20 :: back
        strProp := frontProp ++ kept :: (backProp ++ first :: room)
        cPos := front.length
        cLen := (front.length + (back.length + 1) : Nat) } := by
  obtain ⟨kept, shifted⟩ := propsUp_shift frontProp (backProp ++ [first]) second room
  have inside : ¬ ((front.length : Int) < 0 ∨ ((front ++ back).length : Int) < front.length) := by
    rw [List.length_append]
    omega
  have length : (front ++ 0x20 :: back).length = front.length + (back.length + 1) := by
    rw [List.length_append, List.length_cons]
  have count : (((front.length + (back.length + 1) : Nat) : Int) - front.length).toNat =
      (backProp ++ [first]).length := by
    rw [List.length_append, List.length_singleton, backSize]
    omega
  rw [List.append_assoc, List.singleton_append, frontSize] at shifted
  refine ⟨kept, ?_⟩
  simp only [insC, LineInput.split, LineInput.insertChar, if_neg inside, Int.toNat_natCast, List.take_left,
    List.drop_left, length, count, shifted, Option.bind_eq_bind, Option.bind_some, List.append_assoc,
    List.singleton_append]

theorem insByte_split (c : UInt8) (ctype first second : Lineprop) (room : List Lineprop)
    (frontSize : frontProp.length = front.length) (backSize : backProp.length = back.length) :
    insByte (s.split front back frontProp backProp (first :: second :: room)) c ctype =
      some (s.split (front ++ [c]) back (frontProp ++ [ctype]) backProp (first :: room)) := by
  obtain ⟨kept, inserted⟩ := insC_split s first second room frontSize backSize
  have char := Buffer.put_append front 0x20 c (back ++ [0])
  have prop := Buffer.put_append frontProp kept ctype (backProp ++ first :: room)
  have whole : (front ++ c :: (back ++ [0])).take (front.length + (0x20 :: back).length) = front ++ c :: back := by
    have ends : front ++ c :: (back ++ [0]) = (front ++ c :: back) ++ [0] := by simp
    have same : front.length + (0x20 :: back).length = (front ++ c :: back).length := by simp
    rw [ends, same, List.take_left]
  rw [frontSize] at prop
  rw [insByte, inserted]
  simp only [LineInput.setChar, List.append_assoc, List.cons_append, char, prop, whole, Option.bind_eq_bind,
    Option.bind_some, LineInput.split, List.nil_append, List.length_append, List.length_singleton,
    Int.natCast_add, Int.natCast_one]
  rw [Int.add_assoc, Int.add_comm 1]

theorem insBytes_split (cs : List UInt8) (ctype first : Lineprop) {taken : List Lineprop} (room : List Lineprop)
    (count : taken.length = cs.length) (frontSize : frontProp.length = front.length)
    (backSize : backProp.length = back.length) :
    cs.foldlM (fun s c => insByte s c ctype) (s.split front back frontProp backProp (first :: (taken ++ room))) =
      some (s.split (front ++ cs) back (frontProp ++ List.replicate cs.length ctype) backProp (first :: room)) := by
  induction cs generalizing front frontProp taken with
  | nil =>
      rw [List.length_nil, List.length_eq_zero_iff] at count
      subst count
      simp
  | cons c cs ih =>
      obtain ⟨second, taken, rfl⟩ : ∃ second rest, taken = second :: rest :=
        List.exists_cons_of_length_pos (by rw [count, List.length_cons]; omega)
      have longer : (frontProp ++ [ctype]).length = (front ++ [c]).length := by simp [frontSize]
      have onward := ih (show taken.length = cs.length from Nat.succ_inj.mp count) longer
      rw [List.foldlM_cons, List.cons_append, insByte_split s c ctype first second _ frontSize backSize,
        Option.bind_eq_bind,
        Option.bind_some, onward]
      simp [List.replicate_succ]

variable {w : Wc}

def LineInput.show (s : LineInput) (before after : List (Letter w)) (room : List Lineprop) : LineInput :=
  s.split (textOf before) (textOf after) (propsOf s.isPasswd before) (propsOf s.isPasswd after) room

theorem insChars_show (letters before after : List (Letter w)) (first : Lineprop) {taken : List Lineprop}
    (room : List Lineprop)
    (count : taken.length = (textOf letters).length) :
    insChars w (s.show before after (first :: (taken ++ room))) (textOf letters) =
      some (s.show (before ++ letters) after (first :: room)) := by
  induction letters generalizing before taken with
  | nil =>
      rw [textOf_nil, List.length_nil, List.length_eq_zero_iff] at count
      subst count
      rw [textOf_nil, insChars]
      simp
  | cons letter letters ih =>
      have whole := letter.whole
      rw [textOf_cons, List.length_append, Letter.bytes_length] at count
      obtain ⟨second, taken, rfl⟩ : ∃ second rest, taken = second :: rest := List.exists_cons_of_length_pos (by omega)
      rw [List.length_cons] at count
      obtain ⟨here, later, rfl, hereSize⟩ : ∃ here later, taken = here ++ later ∧ here.length = letter.more.length :=
        ⟨taken.take letter.more.length, taken.drop letter.more.length, (List.take_append_drop _ _).symm, by
          rw [List.length_take]; omega⟩
      rw [List.length_append] at count
      have read : Buffer.read (letter.more ++ textOf letters) 0 ((getMclen w letter.lead : Int) - 1) =
          some letter.more := by
        have found := Buffer.read_append [] letter.more (textOf letters)
        rw [← whole]
        simpa using found
      have behind : (letter.lead :: (letter.more ++ textOf letters)).drop (getMclen w letter.lead) =
          textOf letters := by
        rw [← whole, List.drop_succ_cons, List.drop_left]
      have lead := insByte_split s letter.lead (charType w s.isPasswd letter.lead) first second
        (here ++ (later ++ room)) (propsOf_length s.isPasswd before) (propsOf_length s.isPasswd after)
      have frontSize : (propsOf s.isPasswd before ++ [charType w s.isPasswd letter.lead]).length =
          (textOf before ++ [letter.lead]).length := by
        rw [List.length_append, List.length_append, propsOf_length]
        rfl
      have more := insBytes_split s letter.more (behindFirst (charType w s.isPasswd letter.lead)) first (later ++ room)
        hereSize frontSize (propsOf_length s.isPasswd after)
      have onward := ih (before ++ [letter]) (show later.length = (textOf letters).length by omega)
      have placed : s.show (before ++ [letter]) after (first :: (later ++ room)) =
          s.split (textOf before ++ [letter.lead] ++ letter.more) (textOf after)
            (propsOf s.isPasswd before ++ [charType w s.isPasswd letter.lead] ++
              List.replicate letter.more.length (behindFirst (charType w s.isPasswd letter.lead)))
            (propsOf s.isPasswd after) (first :: (later ++ room)) := by
        rw [LineInput.show, textOf_append, propsOf_append]
        simp [textOf, propsOf, Letter.bytes, Letter.props]
      have kept : (s.show before after (first :: (second :: (here ++ later) ++ room))).isPasswd = s.isPasswd := rfl
      have text : textOf (letter :: letters) = letter.lead :: (letter.more ++ textOf letters) := rfl
      rw [← placed] at more
      rw [text, insChars, behind, kept, read, LineInput.show, List.cons_append,
        List.append_assoc here, lead]
      simp only [Option.bind_eq_bind, Option.bind_some, more, onward, List.append_assoc, List.singleton_append]

end Splits

section Clusters
/-! A character and the combining ones behind it, which the cursor does not stop at. -/

variable {w : Wc} (isPasswd : Bool)

def Combining (letters : List (Letter w)) : Prop := ∀ prop ∈ propsOf isPasswd letters, isWchar2 prop = true

def Starts (letters : List (Letter w)) : Prop :=
  (propsOf isPasswd letters).head?.all (fun prop => !isWchar2 prop) = true

def Cluster (letters : List (Letter w)) : Prop :=
  ∃ first run, propsOf isPasswd letters = first :: run ∧ ∀ prop ∈ run, isWchar2 prop = true

variable {isPasswd}

theorem dropWhile_starts (props : List Lineprop) :
    (props.dropWhile isWchar2).head?.all (fun prop => !isWchar2 prop) = true := by
  cases split : (props.dropWhile isWchar2).head? with
  | none => rfl
  | some prop =>
      have narrow := List.head?_dropWhile_not isWchar2 props
      rw [split] at narrow
      simpa using narrow

theorem combining_behind (isPasswd : Bool) (letters : List (Letter w)) :
    ∃ wide rest, letters = wide ++ rest ∧ Combining isPasswd wide ∧ Starts isPasswd rest := by
  have split : propsOf isPasswd letters =
      (propsOf isPasswd letters).takeWhile isWchar2 ++ (propsOf isPasswd letters).dropWhile isWchar2 :=
    List.takeWhile_append_dropWhile.symm
  obtain ⟨wide, rest, parts, front, back⟩ := cut_at_start split (.inr (dropWhile_starts _))
  refine ⟨wide, rest, parts, ?_, ?_⟩
  · rw [Combining, front]
    intro prop inside
    exact List.mem_takeWhile_imp inside
  · rw [Starts, back]
    exact dropWhile_starts _

theorem propsOf_eq_nil (isPasswd : Bool) {letters : List (Letter w)} : propsOf isPasswd letters = [] ↔ letters =
    [] := by
  cases letters with
  | nil => simp
  | cons letter letters => simp [propsOf_cons, Letter.props]

theorem cluster_behind (isPasswd : Bool) {letters : List (Letter w)} (present : letters ≠ []) :
    ∃ cluster rest, letters = cluster ++ rest ∧ Cluster isPasswd cluster ∧ Starts isPasswd rest := by
  obtain ⟨first, run, split⟩ := List.exists_cons_of_ne_nil (mt (propsOf_eq_nil isPasswd).mp present)
  have parts : propsOf isPasswd letters = (first :: run.takeWhile isWchar2) ++ run.dropWhile isWchar2 := by
    rw [split, List.cons_append, List.takeWhile_append_dropWhile]
  obtain ⟨cluster, rest, same, front, back⟩ := cut_at_start parts (.inr (dropWhile_starts _))
  refine ⟨cluster, rest, same, ⟨first, _, front, fun prop inside => List.mem_takeWhile_imp inside⟩, ?_⟩
  rw [Starts, back]
  exact dropWhile_starts _

theorem step_left (props : List Lineprop) (present : props ≠ []) :
    ∃ front first run, props = front ++ first :: run ∧ (∀ prop ∈ run, isWchar2 prop = true) ∧
      (front = [] ∨ isWchar2 first = false) := by
  induction props using List.reverseRecOn with
  | nil => exact absurd rfl present
  | append_singleton props last ih =>
      by_cases narrow : isWchar2 last = false
      · exact ⟨props, last, [], rfl, by simp, .inr narrow⟩
      · rw [Bool.not_eq_false] at narrow
        by_cases none : props = []
        · exact ⟨[], last, [], by rw [none], by simp, .inl rfl⟩
        · obtain ⟨front, first, run, split, wide, start⟩ := ih none
          refine ⟨front, first, run ++ [last], by rw [split]; simp, ?_, start⟩
          rw [List.forall_mem_append, List.forall_mem_singleton]
          exact ⟨wide, narrow⟩

theorem cluster_in_front (isPasswd : Bool) {letters : List (Letter w)} (present : letters ≠ []) :
    ∃ rest cluster, letters = rest ++ cluster ∧ Cluster isPasswd cluster ∧ (rest = [] ∨ Starts isPasswd cluster) := by
  obtain ⟨front, first, run, split, wide, start⟩ :=
    step_left (propsOf isPasswd letters) (mt (propsOf_eq_nil isPasswd).mp present)
  obtain ⟨rest, cluster, same, inFront, behind⟩ := cut_at_start split (start.imp_right (fun narrow => by simp [narrow]))
  refine ⟨rest, cluster, same, ⟨first, run, behind, wide⟩, ?_⟩
  rcases start with none | narrow
  · rw [none] at inFront
    exact .inl ((propsOf_eq_nil isPasswd).mp inFront)
  · exact .inr (by rw [Starts, behind]; simp [narrow])

theorem Cluster.append_combining {cluster wide : List (Letter w)} (isCluster : Cluster isPasswd cluster)
    (isWide : Combining isPasswd wide) : Cluster isPasswd (cluster ++ wide) := by
  obtain ⟨first, run, props, inner⟩ := isCluster
  refine ⟨first, run ++ propsOf isPasswd wide, by rw [propsOf_append, props, List.cons_append], ?_⟩
  rw [List.forall_mem_append]
  exact ⟨inner, isWide⟩

end Clusters

section Moves

variable {w : Wc} (s : LineInput) {before after cluster rest : List (Letter w)}

theorem mvL_show (after : List (Letter w)) (room : List Lineprop) (isCluster : Cluster s.isPasswd cluster)
    (start : before = [] ∨ Starts s.isPasswd cluster) :
    mvL (s.show (before ++ cluster) after room) = some (s.show before (cluster ++ after) room) := by
  obtain ⟨first, run, props, wide⟩ := isCluster
  have size : (textOf cluster).length = run.length + 1 := by rw [← propsOf_length s.isPasswd, props, List.length_cons]
  have begins : propsOf s.isPasswd before = [] ∨ isWchar2 first = false := by
    refine start.imp (fun none => by rw [none]; rfl) (fun starts => ?_)
    rw [Starts, props] at starts
    simpa using starts
  have back := backWchar2_run wide (propsOf s.isPasswd after ++ room) begins
  rw [propsOf_length] at back
  have positive : (0 : Int) < ((textOf before).length + (textOf cluster).length : Nat) := by omega
  have place : ((((textOf before).length + (textOf cluster).length : Nat) : Int) - 1).toNat =
      (textOf before).length + run.length := by omega
  simp only [mvL, LineInput.show, LineInput.split, textOf_append, propsOf_append, props, List.append_assoc,
    List.cons_append, List.length_append, if_pos positive, place, back, Option.bind_eq_bind, Option.bind_some,
    Nat.add_assoc]

theorem mvR_show (before : List (Letter w)) (room : List Lineprop) (isCluster : Cluster s.isPasswd cluster)
    (starts : Starts s.isPasswd rest) :
    mvR (s.show before (cluster ++ rest) room) = some (s.show (before ++ cluster) rest room) := by
  obtain ⟨first, run, props, wide⟩ := isCluster
  have size : (textOf cluster).length = run.length + 1 := by rw [← propsOf_length s.isPasswd, props, List.length_cons]
  have inside : ((textOf before).length : Int) <
      ((textOf before).length + ((textOf cluster).length + (textOf rest).length) : Nat) := by
    omega
  have skipped := skip_split wide starts (propsOf s.isPasswd before ++ [first]) room
  have count : ((((textOf before).length + ((textOf cluster).length + (textOf rest).length) : Nat) : Int) -
      ((textOf before).length + 1)).toNat = run.length + (propsOf s.isPasswd rest).length := by
    rw [propsOf_length]
    omega
  have place : ((propsOf s.isPasswd before ++ [first]).length : Int) = (textOf before).length + 1 := by
    rw [List.length_append, propsOf_length]
    rfl
  have ending : (((propsOf s.isPasswd before ++ [first]).length + run.length : Nat) : Int) =
      ((textOf before).length + (textOf cluster).length : Nat) := by
    rw [List.length_append, propsOf_length, List.length_singleton]
    omega
  rw [place, ending, List.append_assoc, List.singleton_append] at skipped
  simp only [mvR, LineInput.show, LineInput.split, textOf_append, propsOf_append, props, List.append_assoc,
    List.cons_append, List.length_append, if_pos inside, count, skipped, Option.bind_eq_bind, Option.bind_some,
    Nat.add_assoc]

theorem delC_show (before : List (Letter w)) (room : List Lineprop) (isCluster : Cluster s.isPasswd cluster)
    (starts : Starts s.isPasswd rest)
    (fits : (textOf cluster).length ≤ room.length) :
    ∃ spare, spare.length = room.length + (textOf cluster).length ∧
      delC (s.show before (cluster ++ rest) room) = some (s.show before rest spare) := by
  obtain ⟨first, run, props, wide⟩ := isCluster
  have size : (textOf cluster).length = run.length + 1 := by rw [← propsOf_length s.isPasswd, props, List.length_cons]
  have before' := propsOf_length s.isPasswd before
  have rest' := propsOf_length s.isPasswd rest
  have skipped := skip_split wide starts (propsOf s.isPasswd before ++ [first]) room
  have count : ((((textOf before).length + ((textOf cluster).length + (textOf rest).length) : Nat) : Int) -
      ((textOf before).length + 1)).toNat = run.length + (propsOf s.isPasswd rest).length := by omega
  have place : ((propsOf s.isPasswd before ++ [first]).length : Int) = (textOf before).length + 1 := by
    rw [List.length_append, propsOf_length]
    rfl
  have ending : (((propsOf s.isPasswd before ++ [first]).length + run.length : Nat) : Int) - (textOf before).length =
      (propsOf s.isPasswd cluster).length := by
    rw [List.length_append, List.length_singleton, props, List.length_cons]
    omega
  have enough : (textOf cluster).length + (textOf rest).length ≤ (propsOf s.isPasswd rest ++ room).length := by
    rw [List.length_append]
    omega
  obtain ⟨tail, tailSize, shifted⟩ := propsDown_shift (propsOf s.isPasswd before) (propsOf s.isPasswd cluster)
    (propsOf s.isPasswd rest ++ room) (by rw [props]; simp) enough
  have cluster' := propsOf_length s.isPasswd cluster
  have apart : ¬ (((textOf before).length + ((textOf cluster).length + (textOf rest).length) : Nat) : Int) =
      (textOf before).length := by omega
  have rounds : ((((textOf before).length + ((textOf cluster).length + (textOf rest).length) : Nat) : Int) -
      (textOf before).length).toNat = (textOf cluster).length + (textOf rest).length := by omega
  have left : (propsOf s.isPasswd rest ++ room).take ((textOf cluster).length + (textOf rest).length) =
      propsOf s.isPasswd rest ++ room.take (textOf cluster).length := by
    rw [List.take_append, List.take_of_length_le (by omega)]
    congr 2
    omega
  rw [List.length_append] at tailSize
  rw [left, before', List.append_assoc] at shifted
  rw [place, List.append_assoc, List.singleton_append] at skipped
  refine ⟨room.take (textOf cluster).length ++ tail, ?_, ?_⟩
  · rw [List.length_append, List.length_take]
    omega
  · have removed := delete_middle { s.show before (cluster ++ rest) room with
        strProp := propsOf s.isPasswd before ++ (propsOf s.isPasswd rest ++
          (room.take (textOf cluster).length ++ tail)) }
      (textOf before) (textOf cluster) (textOf rest) (by rw [LineInput.show, LineInput.split, textOf_append])
    rw [delC]
    simp only [LineInput.show, LineInput.split, textOf_append, propsOf_append, List.length_append, if_neg apart, count,
      rounds, List.append_assoc] at removed ⊢
    rw [props] at shifted ending ⊢
    simp only [List.cons_append, skipped, Option.bind_eq_bind, Option.bind_some, ending] at shifted ⊢
    have shorter : (((textOf before).length + ((textOf cluster).length + (textOf rest).length) : Nat) : Int) -
        (textOf cluster).length = ((textOf before).length + (textOf rest).length : Nat) := by omega
    rw [shifted, Option.bind_some, List.length_cons, ← size, removed, Option.bind_some, shorter]

end Moves

end KcnTools.W3m.Linein
