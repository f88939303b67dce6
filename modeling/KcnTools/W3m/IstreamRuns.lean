import KcnTools.W3m.Istream

/-! Runs of calls on one stream. What the calls return is the stream from its
start on, unless an `ISread` asks for exactly what the buffer has. -/

namespace KcnTools.W3m

def lineToLf (rest : List UInt8) : List UInt8 :=
  let (before, left) := scanTo (· == 10) rest
  before ++ left.take 1

def nextLine (rest : List UInt8) : List UInt8 :=
  match scanTo (fun c => c == 10 || c == 13) rest with
  | (before, lineEnd :: left) =>
      if lineEnd = 13 ∧ left.head? = some 10 then before ++ [13, 10] else before ++ [lineEnd]
  | (before, []) => before

def BufferedStream.Ready (base : BaseStream) : Prop := 0 < base.size ∨ base.handle.bytes = []

structure BufferedStream.Sound (base : BaseStream) : Prop where
  ready : base.Ready
  ended : base.iseos = true → base.rest = []

theorem Source.opened_sound (source : Source) : source.opened.Sound := by
  cases source with
  | basic | file | ssl | encoded => exact ⟨.inl (Nat.zero_lt_succ _), nofun⟩
  | str => exact ⟨.inr rfl, nofun⟩

theorem Source.opened_rest (source : Source) : source.opened.rest = source.bytes := by
  cases source with
  | basic | file | ssl | encoded => rfl
  | str s => exact List.append_nil s

theorem doUpdate_sound {base : BaseStream} (sound : base.Sound) (empty : base.unread = []) :
    (doUpdate base).Sound := by
  have rest := doUpdate_rest base empty
  have bytes : base.rest = base.handle.bytes := by simp [BufferedStream.rest, empty]
  constructor
  · rcases sound.ready with room | done
    · exact .inl (doUpdate_size base ▸ room)
    · rw [bytes, done] at rest
      exact .inr (List.append_eq_nil_iff.mp rest).2
  · intro ended
    rw [rest, bytes]
    rw [doUpdate_base] at ended
    split at ended
    next got handle read =>
      split at ended
      next none =>
        have stopped : (base.handle.read base.size).1 = [] := by rw [read]; exact none
        rcases (Handle.read_nil base.handle base.size).mp stopped with zero | done
        · rcases sound.ready with room | done
          · omega
          · exact done
        · exact done
      next => exact bytes ▸ sound.ended ended

/-- What a call that returns `bytes` and leaves `after` does to the stream. -/
structure Returns (base : BaseStream) (bytes : List UInt8) (after : BaseStream) : Prop where
  sound : after.Sound
  rest : base.rest = bytes ++ after.rest

theorem Returns.of_update {base after : BaseStream} {bytes : List UInt8} (empty : base.unread = [])
    (later : Returns (doUpdate base) bytes after) : Returns base bytes after :=
  ⟨later.sound, doUpdate_rest base empty ▸ later.rest⟩

theorem Returns.taken {base : BaseStream} (sound : base.Sound) (going : ¬ base.iseos = true)
    {bytes left : List UInt8} (split : base.unread = bytes ++ left) :
    Returns base bytes { base with unread := left } :=
  ⟨⟨sound.ready, fun ended => absurd ended going⟩, by simp [BufferedStream.rest, split]⟩

theorem Returns.trans {base middle after : BaseStream} {first second : List UInt8}
    (earlier : Returns base first middle) (later : Returns middle second after) :
    Returns base (first ++ second) after :=
  ⟨later.sound, by rw [earlier.rest, later.rest, List.append_assoc]⟩

theorem scanTo_append_of_found {isEnd : UInt8 → Bool} {bytes before left : List UInt8} {c : UInt8}
    (found : scanTo isEnd bytes = (before, c :: left)) (more : List UInt8) :
    scanTo isEnd (bytes ++ more) = (before, c :: (left ++ more)) := by
  induction bytes generalizing before with
  | nil => simp [scanTo] at found
  | cons first rest ih =>
      simp only [scanTo, List.takeWhile_cons, List.dropWhile_cons, List.cons_append, Prod.mk.injEq] at found ih ⊢
      cases ends : isEnd first with
      | true => simp_all
      | false =>
          simp only [ends, Bool.not_false, ↓reduceIte] at found ⊢
          obtain ⟨rfl, found⟩ := found
          have later := ih ⟨rfl, found⟩
          exact ⟨by rw [later.1], later.2⟩

theorem scanTo_append_of_none {isEnd : UInt8 → Bool} {bytes before : List UInt8}
    (none : scanTo isEnd bytes = (before, [])) (more : List UInt8) :
    scanTo isEnd (bytes ++ more) = (bytes ++ (scanTo isEnd more).1, (scanTo isEnd more).2) := by
  induction bytes generalizing before with
  | nil => rfl
  | cons first rest ih =>
      simp only [scanTo, List.takeWhile_cons, List.dropWhile_cons, List.cons_append, Prod.mk.injEq] at none ih ⊢
      cases ends : isEnd first with
      | true => simp_all
      | false =>
          simp only [ends, Bool.not_false, ↓reduceIte] at none ⊢
          have later := ih ⟨rfl, none.2⟩
          exact ⟨by rw [later.1], later.2⟩

theorem scanTo_all {isEnd : UInt8 → Bool} {bytes before : List UInt8}
    (none : scanTo isEnd bytes = (before, [])) : ∀ c ∈ bytes, isEnd c ≠ true := by
  rw [scanTo, Prod.mk.injEq, List.dropWhile_eq_nil_iff] at none
  intro c found
  simpa using none.2 c found

theorem scanTo_none {isEnd : UInt8 → Bool} {bytes before : List UInt8}
    (none : scanTo isEnd bytes = (before, [])) : before = bytes := by
  have whole := scanTo_append isEnd bytes
  rw [none] at whole
  simpa using whole

theorem lineToLf_of_found {bytes before left : List UInt8} {c : UInt8}
    (found : scanTo (· == 10) bytes = (before, c :: left)) (more : List UInt8) :
    lineToLf (bytes ++ more) = before ++ [c] := by
  rw [lineToLf, scanTo_append_of_found found]
  rfl

theorem lineToLf_of_none {bytes before : List UInt8} (none : scanTo (· == 10) bytes = (before, []))
    (more : List UInt8) : lineToLf (bytes ++ more) = bytes ++ lineToLf more := by
  rw [lineToLf, scanTo_append_of_none none, lineToLf]
  exact List.append_assoc _ _ _

theorem nextLine_of_found {bytes before left : List UInt8} {c : UInt8}
    (found : scanTo (fun c => c == 10 || c == 13) bytes = (before, c :: left)) (more : List UInt8) :
    nextLine (bytes ++ more) =
      if c = 13 ∧ (left ++ more).head? = some 10 then before ++ [13, 10] else before ++ [c] := by
  rw [nextLine, scanTo_append_of_found found]

theorem nextLine_of_none {bytes before : List UInt8}
    (none : scanTo (fun c => c == 10 || c == 13) bytes = (before, [])) (more : List UInt8) :
    nextLine (bytes ++ more) = bytes ++ nextLine more := by
  rw [nextLine, scanTo_append_of_none none, nextLine]
  cases shape : scanTo (fun c => c == 10 || c == 13) more with
  | mk first left =>
      cases left with
      | nil => rfl
      | cons lineEnd left =>
          dsimp only
          split <;> simp

theorem scanTo_found {isEnd : UInt8 → Bool} {bytes before left : List UInt8} {c : UInt8}
    (found : scanTo isEnd bytes = (before, c :: left)) : isEnd c = true := by
  rw [scanTo, Prod.mk.injEq] at found
  have stopped := List.head_dropWhile_not (fun c => !isEnd c) (l := bytes) (by simp [found.2])
  simpa [found.2] using stopped

theorem strISgetsFrom_spec (base : BaseStream) (s : List UInt8) (sound : base.Sound) :
    ∃ bytes, (strISgetsFrom base s).1 = s ++ bytes ∧ bytes = lineToLf base.rest ∧
      Returns base bytes (strISgetsFrom base s).2 := by
  induction base, s using strISgetsFrom.induct with
  | case1 base s ended =>
      rw [strISgetsFrom, if_pos ended]
      refine ⟨[], (List.append_nil s).symm, ?_, sound, rfl⟩
      rw [sound.ended ended]
      rfl
  | case2 base s going empty ih =>
      rw [strISgetsFrom, if_neg going, dif_pos empty]
      obtain ⟨bytes, read, line, returns⟩ := ih (doUpdate_sound sound empty)
      exact ⟨bytes, read, by rw [line, doUpdate_rest base empty], returns.of_update empty⟩
  | case3 base s going filled before newline left found =>
      rw [strISgetsFrom, if_neg going, dif_neg filled, found]
      have whole := scanTo_append (· == 10) base.unread
      rw [found] at whole
      exact ⟨before ++ [newline], by simp, (lineToLf_of_found found _).symm,
        Returns.taken sound going (by simpa using whole.symm)⟩
  | case4 base s going filled before found ih =>
      rw [strISgetsFrom, if_neg going, dif_neg filled, found]
      have all := scanTo_none found
      have taken : Returns base before { base with unread := [] } :=
        Returns.taken sound going (by simp [all])
      obtain ⟨bytes, read, line, returns⟩ := ih taken.sound
      refine ⟨before ++ bytes, by rw [read, List.append_assoc], ?_, taken.trans returns⟩
      rw [line, BufferedStream.rest, BufferedStream.rest, lineToLf_of_none found, List.nil_append, all]

def lineRest (s rest : List UInt8) : List UInt8 :=
  if s.getLast? = some 13 then (if rest.head? = some 10 then [10] else []) else nextLine rest

theorem strmyISgetsFrom_spec (base : BaseStream) (s : List UInt8) (sound : base.Sound) :
    ∃ bytes, (strmyISgetsFrom base s).1 = s ++ bytes ∧ bytes = lineRest s base.rest ∧
      Returns base bytes (strmyISgetsFrom base s).2 := by
  induction base, s using strmyISgetsFrom.induct with
  | case1 base s ended =>
      rw [strmyISgetsFrom, if_pos ended]
      refine ⟨[], (List.append_nil s).symm, ?_, sound, rfl⟩
      rw [sound.ended ended]
      simp [lineRest, nextLine, scanTo]
  | case2 base s going empty ih =>
      rw [strmyISgetsFrom, if_neg going, dif_pos empty]
      obtain ⟨bytes, read, line, returns⟩ := ih (doUpdate_sound sound empty)
      exact ⟨bytes, read, by rw [line, doUpdate_rest base empty], returns.of_update empty⟩
  | case3 base s going filled cr lf =>
      rw [strmyISgetsFrom, if_neg going, dif_neg filled, if_pos cr, if_pos lf]
      obtain ⟨c, left, shape⟩ := List.exists_cons_of_ne_nil filled
      rw [shape, List.head?_cons, Option.some.injEq] at lf
      subst c
      refine ⟨[10], rfl, by simp [lineRest, cr, BufferedStream.rest, shape], ?_⟩
      rw [shape, List.tail_cons]
      exact Returns.taken sound going shape
  | case4 base s going filled cr other =>
      rw [strmyISgetsFrom, if_neg going, dif_neg filled, if_pos cr, if_neg other]
      obtain ⟨c, left, shape⟩ := List.exists_cons_of_ne_nil filled
      refine ⟨[], (List.append_nil s).symm, ?_, sound, rfl⟩
      rw [shape] at other
      simp [lineRest, cr, BufferedStream.rest, shape, show ¬ c = 10 by simpa using other]
  | case5 base s going filled started before left found =>
      rw [strmyISgetsFrom, if_neg going, dif_neg filled, if_neg started]
      split
      next first lineEnd rest shape =>
        rw [found, Prod.mk.injEq, List.cons.injEq] at shape
        obtain ⟨rfl, rfl, rfl⟩ := shape
        rw [if_pos rfl]
        have whole := scanTo_append (fun c => c == 10 || c == 13) base.unread
        rw [found] at whole
        refine ⟨before ++ [10], by simp, ?_, Returns.taken sound going (by simpa using whole.symm)⟩
        rw [lineRest, if_neg started, BufferedStream.rest, nextLine_of_found found]
        simp
      next first shape =>
        rw [found, Prod.mk.injEq] at shape
        exact absurd shape.2 (List.cons_ne_nil _ _)
  | case6 base s going filled started before lineEnd left found other ih =>
      rw [strmyISgetsFrom, if_neg going, dif_neg filled, if_neg started]
      have ends := scanTo_found found
      obtain rfl : lineEnd = 13 := by simpa [other] using ends
      have whole := scanTo_append (fun c => c == 10 || c == 13) base.unread
      rw [found] at whole
      have taken : Returns base (before ++ [13]) { base with unread := left } :=
        Returns.taken sound going (by simpa using whole.symm)
      obtain ⟨bytes, read, line, returns⟩ := ih taken.sound
      split
      next first lineEnd rest shape =>
        rw [found, Prod.mk.injEq, List.cons.injEq] at shape
        obtain ⟨rfl, rfl, rfl⟩ := shape
        rw [if_neg other]
        refine ⟨before ++ [13] ++ bytes, by rw [read]; simp, ?_, taken.trans returns⟩
        rw [line, lineRest, if_pos (by simp), lineRest, if_neg started, BufferedStream.rest, BufferedStream.rest,
          nextLine_of_found found]
        split
        next lf =>
          rw [if_pos ⟨rfl, lf⟩]
          simp
        next none =>
          rw [if_neg fun both => none both.2]
          simp
      next first shape =>
        rw [found, Prod.mk.injEq] at shape
        exact absurd shape.2 (List.cons_ne_nil _ _)
  | case7 base s going filled started before found ih =>
      rw [strmyISgetsFrom, if_neg going, dif_neg filled, if_neg started]
      have all := scanTo_none found
      have taken : Returns base before { base with unread := [] } :=
        Returns.taken sound going (by simp [all])
      obtain ⟨bytes, read, line, returns⟩ := ih taken.sound
      split
      next first lineEnd rest shape =>
        rw [found, Prod.mk.injEq] at shape
        exact absurd shape.2.symm (List.cons_ne_nil _ _)
      next first shape =>
        rw [found, Prod.mk.injEq] at shape
        obtain rfl := shape.1
        refine ⟨before ++ bytes, by rw [read, List.append_assoc], ?_, taken.trans returns⟩
        have going_on : (s ++ before).getLast? ≠ some 13 := by
          intro last
          rw [all, List.getLast?_append, List.getLast?_eq_some_getLast filled, Option.some_or,
            Option.some.injEq] at last
          exact scanTo_all found 13 (last ▸ List.getLast_mem filled) (by decide)
        rw [line, lineRest, if_neg going_on, lineRest, if_neg started, BufferedStream.rest, BufferedStream.rest,
          nextLine_of_none found, List.nil_append, all]

theorem refill_spec {base : BaseStream} (sound : base.Sound) :
    Returns base [] (if !base.iseos && base.unread.isEmpty then doUpdate base else base) := by
  split
  next both =>
    have empty : base.unread = [] := by simpa using (Bool.and_eq_true_iff.mp both).2
    exact ⟨doUpdate_sound sound empty, (doUpdate_rest base empty).symm⟩
  next => exact ⟨sound, rfl⟩

theorem refill_filled {base : BaseStream}
    (going : (if !base.iseos && base.unread.isEmpty then doUpdate base else base).iseos = false) :
    (if !base.iseos && base.unread.isEmpty then doUpdate base else base).unread ≠ [] := by
  split at going
  next both =>
    rw [if_pos both]
    rcases doUpdate_filled base (by simpa using (Bool.and_eq_true_iff.mp both).1) with ended | filled
    · rw [ended] at going
      exact absurd going (by decide)
    · exact filled.1
  next neither =>
    rw [if_neg neither]
    simpa [going] using neither

inductive Call where
  | getc
  | gets
  | mygets
  | eos
  | read (count : Nat) (positive : 0 < count)

inductive Answer where
  | char (c : UInt8)
  | line (s : List UInt8)
  | flag (eos : Bool)
  | data (bytes : List UInt8)

def call (base : BaseStream) : Call → Answer × BaseStream
  | .getc => (.char (isGetc base).1, (isGetc base).2)
  | .gets => (.line (strISgets base).1, (strISgets base).2)
  | .mygets => (.line (strmyISgets base).1, (strmyISgets base).2)
  | .eos => (.flag (isEos base).1, (isEos base).2)
  | .read count _ => (.data (isRead base count).1, (isRead base count).2)

def trace (base : BaseStream) : List Call → List (Call × Answer × Bool)
  | [] => []
  | c :: calls => (c, (call base c).1, (call base c).2.iseos) :: trace (call base c).2 calls

/-- What a call may return of a stream of which `rest` is left, and how much of it that is. -/
inductive Delivers (rest : List UInt8) : Call → Answer → Bool → List UInt8 → Prop where
  | getc (c : UInt8) (left : List UInt8) (shape : rest = c :: left) : Delivers rest .getc (.char c) false [c]
  | getcEnd (none : rest = []) : Delivers rest .getc (.char 0) true []
  | gets (ended : Bool) : Delivers rest .gets (.line (lineToLf rest)) ended (lineToLf rest)
  | mygets (ended : Bool) (last : nextLine rest = [] → rest = []) :
      Delivers rest .mygets (.line (nextLine rest)) ended (nextLine rest)
  | eos (ended : Bool) : Delivers rest .eos (.flag ended) ended []
  | read {count : Nat} {positive : 0 < count} (bytes : List UInt8) (ended : Bool) (few : bytes.length ≤ count)
      (last : bytes = [] → rest = []) : Delivers rest (.read count positive) (.data bytes) ended bytes

/-- The calls return the stream from `rest` on, and the end only after its last byte. -/
def WholeStream : List UInt8 → List (Call × Answer × Bool) → Prop
  | _, [] => True
  | rest, (c, answer, ended) :: later => ∃ bytes left, rest = bytes ++ left ∧
      Delivers rest c answer ended bytes ∧ (ended = true → left = []) ∧ WholeStream left later

def Inexact (base : BaseStream) : Call → Prop
  | .read count _ => base.unread.length = count → base.handle.bytes = []
  | _ => True

theorem nextLine_nil {rest : List UInt8} (none : nextLine rest = []) : rest = [] := by
  rw [nextLine] at none
  split at none
  next before lineEnd left _ =>
    split at none
    · exact absurd none (by simp)
    · exact absurd none (by simp)
  next before found =>
    rw [none] at found
    exact (scanTo_none found).symm

theorem isRead_rest (base : BaseStream) (count : Nat) :
    base.rest = (isRead base count).1 ++ (isRead base count).2.rest := by
  rw [isRead]
  split
  next => rfl
  next =>
    dsimp only
    have parts := List.take_append_drop count base.unread
    split
    next used =>
      rw [used, List.append_nil] at parts
      have kept := base.handle.read_bytes (count - (base.unread.take count).length)
      rw [parts] at kept ⊢
      simp only [BufferedStream.rest, used, List.nil_append, List.append_assoc, kept]
    next => simp only [BufferedStream.rest, ← List.append_assoc, parts]

theorem isRead_length (base : BaseStream) (count : Nat) : (isRead base count).1.length ≤ count := by
  rw [isRead]
  split
  next => exact Nat.zero_le count
  next =>
    dsimp only
    split
    next =>
      have few := base.handle.read_length (count - (base.unread.take count).length)
      have taken := List.length_take_le count base.unread
      rw [List.length_append]
      omega
    next => exact List.length_take_le count base.unread

theorem isRead_nil {base : BaseStream} (sound : base.Sound) {count : Nat} (positive : 0 < count)
    (none : (isRead base count).1 = []) : base.rest = [] := by
  rw [isRead] at none
  split at none
  next ended => exact sound.ended ended
  next =>
    dsimp only at none
    split at none
    next used =>
      rw [List.append_eq_nil_iff] at none
      have empty : base.unread = [] := by
        rw [← List.take_append_drop count base.unread, none.1, used]
        rfl
      rw [none.1] at none
      rcases (Handle.read_nil _ _).mp none.2 with zero | done
      · exact absurd zero (by simpa using Nat.pos_iff_ne_zero.mp positive)
      · rw [BufferedStream.rest, empty, done]
        rfl
    next left =>
      rcases List.take_eq_nil_iff.mp none with zero | empty
      · omega
      · exact absurd (by rw [empty, List.drop_nil]) left

theorem isRead_ready {base : BaseStream} (sound : base.Sound) (count : Nat) :
    (isRead base count).2.Ready := by
  rw [isRead]
  split
  next => exact sound.ready
  next =>
    dsimp only
    split
    next =>
      rcases sound.ready with room | done
      · exact .inl room
      · right
        have kept := base.handle.read_bytes (count - (base.unread.take count).length)
        rw [done] at kept
        exact (List.append_eq_nil_iff.mp kept).2
    next => exact sound.ready

theorem isRead_ended_iff {base : BaseStream} (sound : base.Sound) {count : Nat} :
    ((isRead base count).2.iseos = true → (isRead base count).2.rest = []) ↔
      (base.unread.length = count → base.handle.bytes = []) := by
  rw [isRead]
  split
  next ended =>
    have all := sound.ended ended
    rw [BufferedStream.rest, List.append_eq_nil_iff] at all
    simp [BufferedStream.rest, all]
  next going =>
    dsimp only
    split
    next used =>
      have few : base.unread.length ≤ count := List.drop_eq_nil_iff.mp used
      rw [List.take_of_length_le few]
      have kept := base.handle.read_bytes (count - base.unread.length)
      have stops := Handle.read_nil base.handle (count - base.unread.length)
      simp only [List.isEmpty_iff, BufferedStream.rest, used, List.nil_append]
      constructor
      · intro last exact_
        have none := stops.mpr (.inl (by omega))
        rw [none, last none] at kept
        exact kept.symm
      · intro last none
        rcases stops.mp none with zero | done
        · rw [last (by omega), none] at kept
          exact kept
        · rw [done, none] at kept
          exact kept
    next left =>
      have more : ¬ base.unread.length ≤ count := fun few => left (List.drop_eq_nil_iff.mpr few)
      constructor
      · intro _ exact_
        omega
      · intro _ ended
        exact absurd ended going

def step (base : BaseStream) (c : Call) : Option BaseStream := some (call base c).2

/-- The bytes of the stream in an answer. The NUL that `ISgetc` gives at the end is none. -/
def delivered (ended : Bool) : Call → Answer → List UInt8
  | .getc, .char c => if ended then [] else [c]
  | _, .char _ => []
  | _, .line s => s
  | _, .flag _ => []
  | _, .data bytes => bytes

theorem Delivers.bytes_eq {rest bytes : List UInt8} {c : Call} {answer : Answer} {ended : Bool}
    (delivers : Delivers rest c answer ended bytes) : bytes = delivered ended c answer := by
  cases delivers <;> rfl

theorem isGetc_spec {base : BaseStream} (sound : base.Sound) :
    (isGetc base).2.Sound ∧
      base.rest = (if (isGetc base).2.iseos then [] else [(isGetc base).1]) ++ (isGetc base).2.rest ∧
      ((isGetc base).2.iseos = true → (isGetc base).1 = 0) := by
  have refilled := refill_spec sound
  have filled := @refill_filled base
  rw [isGetc]
  generalize (if !base.iseos && base.unread.isEmpty then doUpdate base else base) = base' at refilled filled ⊢
  split
  next ended => exact ⟨refilled.sound, refilled.rest, fun _ => rfl⟩
  next going =>
    obtain ⟨c, left, shape⟩ := List.exists_cons_of_ne_nil (filled (by simpa using going))
    have taken : Returns base' [c] { base' with unread := left } := Returns.taken refilled.sound going shape
    rw [shape]
    exact ⟨taken.sound, refilled.rest.trans taken.rest, fun ended => absurd ended going⟩

/-- What a call on a sound stream returns, and when it leaves a sound stream. -/
theorem call_spec {base : BaseStream} (sound : base.Sound) (c : Call) :
    base.rest = delivered (call base c).2.iseos c (call base c).1 ++ (call base c).2.rest ∧
      Delivers base.rest c (call base c).1 (call base c).2.iseos
        (delivered (call base c).2.iseos c (call base c).1) ∧
      (Inexact base c → (call base c).2.Sound) ∧
      (((call base c).2.iseos = true → (call base c).2.rest = []) → Inexact base c) := by
  cases c with
  | getc =>
      obtain ⟨after, rest, none⟩ := isGetc_spec sound
      refine ⟨rest, ?_, fun _ => after, fun _ => trivial⟩
      change Delivers base.rest .getc (.char (isGetc base).1) (isGetc base).2.iseos
        (if (isGetc base).2.iseos then [] else [(isGetc base).1])
      cases ended : (isGetc base).2.iseos with
      | true =>
          rw [none ended, if_pos rfl]
          rw [ended, if_pos rfl, after.ended ended] at rest
          exact .getcEnd rest
      | false =>
          rw [ended] at rest
          exact .getc _ _ rest
  | gets =>
      obtain ⟨bytes, read, line, returns⟩ := strISgetsFrom_spec base [] sound
      rw [List.nil_append] at read
      refine ⟨?_, ?_, fun _ => returns.sound, fun _ => trivial⟩
      · rw [call, strISgets, read]
        exact returns.rest
      · simp only [call, strISgets, read, line]
        exact .gets _
  | mygets =>
      obtain ⟨bytes, read, line, returns⟩ := strmyISgetsFrom_spec base [] sound
      rw [List.nil_append] at read
      rw [lineRest, if_neg (by simp)] at line
      refine ⟨?_, ?_, fun _ => returns.sound, fun _ => trivial⟩
      · rw [call, strmyISgets, read]
        exact returns.rest
      · simp only [call, strmyISgets, read, line]
        exact .mygets _ nextLine_nil
  | eos =>
      have refilled := refill_spec sound
      exact ⟨refilled.rest, .eos _, fun _ => refilled.sound, fun _ => trivial⟩
  | read count positive =>
      exact ⟨isRead_rest base count, .read _ _ (isRead_length base count) (isRead_nil sound positive),
        fun inexact => ⟨isRead_ready sound count, (isRead_ended_iff sound).mpr inexact⟩,
        (isRead_ended_iff sound).mp⟩

theorem trace_whole_iff {base : BaseStream} (sound : base.Sound) (calls : List Call) :
    WholeStream base.rest (trace base calls) ↔ Run.Admitted step Inexact base calls := by
  induction calls generalizing base with
  | nil => exact iff_of_true trivial trivial
  | cons c calls ih =>
      obtain ⟨rest, delivers, keeps, needs⟩ := call_spec sound c
      rw [trace, WholeStream, Run.Admitted]
      constructor
      · rintro ⟨bytes, left, shape, answered, last, later⟩
        obtain rfl : left = (call base c).2.rest := by
          rw [answered.bytes_eq, rest] at shape
          exact (List.append_cancel_left shape).symm
        have inexact := needs last
        refine ⟨inexact, fun next stepped => ?_⟩
        rw [← Option.some.inj stepped]
        exact (ih (keeps inexact)).mp later
      · rintro ⟨inexact, later⟩
        have after := keeps inexact
        exact ⟨_, _, rest, delivers, after.ended, (ih after).mpr (later _ rfl)⟩

/-- The calls on a stream return what it is opened on, exactly when no `ISread` asks for
what the buffer has while there is more to read. -/
theorem trace_opened_iff (source : Source) (calls : List Call) :
    WholeStream source.bytes (trace source.opened calls) ↔
      Run.Admitted step Inexact source.opened calls := by
  rw [← source.opened_rest]
  exact trace_whole_iff source.opened_sound calls

def halves : Handle := ⟨[[97, 98], [99]], by decide⟩

/-- An `ISread` of the two bytes that `ISeos` has read, and then the end of the stream. -/
theorem trace_truncated : Source.bytes (.basic halves) = [97, 98, 99] ∧
    trace (newInputStream halves) [.eos, .read 2 (by decide), .eos, .read 1 (by decide)] =
      [(.eos, .flag false, false), (.read 2 (by decide), .data [97, 98], true),
        (.eos, .flag true, true), (.read 1 (by decide), .data [], true)] ∧
    ¬ WholeStream (Source.bytes (.basic halves))
      (trace (Source.opened (.basic halves)) [.eos, .read 2 (by decide), .eos, .read 1 (by decide)]) := by
  refine ⟨rfl, rfl, ?_⟩
  rw [← Source.opened_rest, trace_whole_iff (Source.opened_sound _)]
  rintro ⟨_, later⟩
  have inexact := (later _ rfl).1
  exact absurd (inexact rfl) (by decide)

end KcnTools.W3m
