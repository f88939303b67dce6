import KcnTools.W3m.LineRuns

/-! The movements over words, the history, and runs of all operations of the line editor. -/

namespace KcnTools.W3m.Linein

open Libwc (Wc)

section Words

variable {s : LineInput}

theorem stopsAt_exists (first : Bool) {cPos : Int} (inside : 0 < cPos) (upper : cPos ≤ s.strBuf.length) :
    ∃ stop, stopsAt s first cPos = some stop ∧ (stop = true ↔ first = false ∧ StopsBehind s cPos) := by
  cases first with
  | true => exact ⟨false, rfl, by simp⟩
  | false =>
      obtain ⟨c, read⟩ := Buffer.get_exists (show 0 ≤ cPos - 1 by omega)
        (show cPos - 1 < (s.strBuf ++ [0]).length by rw [List.length_append]; omega)
      refine ⟨terminated c, by rw [stopsAt, LineInput.charAt, read]; rfl, fun stop => ⟨rfl, c, read, stop⟩, ?_⟩
      rintro ⟨-, d, again, stop⟩
      rw [LineInput.charAt, read, Option.some.injEq] at again
      exact again ▸ stop

theorem wideAt_exists (inside : Bool) (pos : Int) (fits : s.strBuf.length ≤ s.strProp.length)
    (range : inside = true → 0 ≤ pos ∧ pos < s.strBuf.length) :
    ∃ wide, wideAt s inside pos = some wide ∧ (wide = true → inside = true) := by
  cases inside with
  | false => exact ⟨false, rfl, id⟩
  | true =>
      obtain ⟨prop, read⟩ := Buffer.get_exists (range rfl).1
        (Int.lt_of_lt_of_le (range rfl).2 (Int.ofNat_le.mpr fits))
      exact ⟨isWchar2 prop, by rw [wideAt, read]; rfl, fun _ => rfl⟩

/-- A movement to the left over words ends at the beginning or behind the first delimiter that it comes to. -/
theorem mvLwLoop_word (first : Bool) (cPos : Int) (word : s.moveWord = true)
    (fits : s.strBuf.length ≤ s.strProp.length) (lower : 0 ≤ cPos) (upper : cPos ≤ s.strBuf.length)
    (reached : ReachedLeft s cPos) (started : first = true ∧ cPos = s.cPos ∨ first = false ∧ cPos < s.cPos) :
    ∃ pos, mvLwLoop s first cPos = some pos ∧ ReachedLeft s pos ∧ 0 ≤ pos ∧ pos ≤ cPos ∧
      (pos = 0 ∨ StopsBehind s pos ∧ pos < s.cPos) := by
  induction size : cPos.toNat using Nat.strong_induction_on generalizing cPos first with
  | _ size ih =>
      rw [mvLwLoop]
      by_cases inside : 0 < cPos
      · obtain ⟨stop, stops, behind⟩ := stopsAt_exists first inside upper
        obtain ⟨wide, read, more⟩ := wideAt_exists (decide (0 < cPos - 1)) (cPos - 1) fits
          (by rw [decide_eq_true_eq]; omega)
        rw [decide_eq_true_eq] at more
        rw [if_pos inside, stops, Option.bind_eq_bind, Option.bind_some]
        cases stop with
        | true =>
            obtain ⟨later, delimiter⟩ := behind.mp rfl
            have less := (started.resolve_left fun begins => by simp [later] at begins).2
            exact ⟨cPos, rfl, reached, lower, Int.le_refl _, .inr ⟨delimiter, less⟩⟩
        | false =>
            have goesOn : cPos < s.cPos → ¬ StopsBehind s cPos := fun less delimiter =>
              Bool.false_ne_true (behind.mpr ⟨(started.resolve_left fun begins => by omega).1, delimiter⟩)
            obtain ⟨shorter, atMost⟩ : 0 ≤ (if wide = true then cPos - 1 - 1 else cPos - 1) ∧
                (if wide = true then cPos - 1 - 1 else cPos - 1) < cPos := by
              split
              next isWide => exact ⟨by have := more isWide; omega, by omega⟩
              next => omega
            obtain ⟨pos, ran, visited, zero, below, ending⟩ := ih _ (by omega) false _ shorter (by omega)
              (reached.step inside goesOn read) (.inr ⟨rfl, by omega⟩) rfl
            refine ⟨pos, ?_, visited, zero, by omega, ending⟩
            rw [if_neg (by simp), read, Option.bind_some]
            exact (if_pos word).trans ran
      · exact ⟨cPos, if_neg inside, reached, lower, Int.le_refl _, .inl (by omega)⟩

theorem mvRwLoop_word (first : Bool) (cPos : Int) (word : s.moveWord = true)
    (fits : s.strBuf.length ≤ s.strProp.length) (length : s.cLen = s.strBuf.length) (lower : 0 ≤ s.cPos)
    (upper : cPos ≤ s.cLen) (reached : ReachedRight s cPos)
    (started : first = true ∧ cPos = s.cPos ∨ first = false ∧ s.cPos < cPos) :
    ∃ pos, mvRwLoop s first cPos = some pos ∧ ReachedRight s pos ∧ cPos ≤ pos ∧ pos ≤ s.cLen ∧
      (pos = s.cLen ∨ StopsBehind s pos ∧ s.cPos < pos) := by
  induction size : (s.cLen - cPos).toNat using Nat.strong_induction_on generalizing cPos first with
  | _ size ih =>
      rw [mvRwLoop]
      by_cases inside : cPos < s.cLen
      · obtain ⟨stop, stops, behind⟩ : ∃ stop, stopsAt s first cPos = some stop ∧
            (stop = true ↔ first = false ∧ StopsBehind s cPos) := by
          rcases started with ⟨rfl, _⟩ | ⟨rfl, further⟩
          · exact ⟨false, rfl, by simp⟩
          · exact stopsAt_exists false (by omega) (by omega)
        obtain ⟨wide, read, more⟩ := wideAt_exists (decide (cPos + 1 < s.cLen)) (cPos + 1) fits
          (by rw [decide_eq_true_eq]; omega)
        rw [decide_eq_true_eq] at more
        rw [if_pos inside, stops, Option.bind_eq_bind, Option.bind_some]
        cases stop with
        | true =>
            obtain ⟨later, delimiter⟩ := behind.mp rfl
            have greater := (started.resolve_left fun begins => by simp [later] at begins).2
            exact ⟨cPos, rfl, reached, Int.le_refl _, upper, .inr ⟨delimiter, greater⟩⟩
        | false =>
            have goesOn : s.cPos < cPos → ¬ StopsBehind s cPos := fun greater delimiter =>
              Bool.false_ne_true (behind.mpr ⟨(started.resolve_left fun begins => by omega).1, delimiter⟩)
            obtain ⟨further, atMost⟩ : cPos < (if wide = true then cPos + 1 + 1 else cPos + 1) ∧
                (if wide = true then cPos + 1 + 1 else cPos + 1) ≤ s.cLen := by
              split
              next isWide => exact ⟨by omega, by have := more isWide; omega⟩
              next => omega
            obtain ⟨pos, ran, visited, above, limit, ending⟩ := ih _ (by omega) false _ atMost
              (reached.step inside goesOn read) (.inr ⟨rfl, by omega⟩) rfl
            refine ⟨pos, ?_, visited, by omega, limit, ending⟩
            rw [if_neg (by simp), read, Option.bind_some]
            exact (if_pos word).trans ran
      · exact ⟨cPos, if_neg inside, reached, Int.le_refl _, upper, .inl (by omega)⟩

theorem mvLwLoop_single {cPos : Int} (single : s.moveWord = false) (inside : 0 < cPos) {wide : Bool}
    (read : wideAt s (0 < cPos - 1) (cPos - 1) = some wide) :
    mvLwLoop s true cPos = some (if wide then cPos - 1 - 1 else cPos - 1) := by
  rw [mvLwLoop, if_pos inside, stopsAt, if_pos rfl, Option.bind_eq_bind, Option.bind_some, if_neg (by simp), read,
    Option.bind_some]
  exact if_neg (by simp [single])

theorem mvRwLoop_single {cPos : Int} (single : s.moveWord = false) (inside : cPos < s.cLen) {wide : Bool}
    (read : wideAt s (cPos + 1 < s.cLen) (cPos + 1) = some wide) :
    mvRwLoop s true cPos = some (if wide then cPos + 1 + 1 else cPos + 1) := by
  rw [mvRwLoop, if_pos inside, stopsAt, if_pos rfl, Option.bind_eq_bind, Option.bind_some, if_neg (by simp), read,
    Option.bind_some]
  exact if_neg (by simp [single])

variable {w : Wc}

theorem Kept.sizes (kept : Kept w s) : 0 ≤ s.cPos ∧ s.cPos ≤ s.cLen ∧ s.cLen = s.strBuf.length ∧
    s.strBuf.length ≤ s.strProp.length := by
  have held := kept.consistent
  refine ⟨held.inside.1, held.inside.2, held.length, ?_⟩
  have := held.length
  have := held.bounded
  rw [held.room]
  omega

theorem Kept.start (kept : Kept w s) : Boundary w s.strBuf 0 := by
  obtain ⟨before, after, room, same, _⟩ := kept.shown
  refine ⟨[], before ++ after, ?_, rfl⟩
  rw [same, textOf_append]
  rfl

theorem Kept.finish (kept : Kept w s) : Boundary w s.strBuf s.cLen := by
  obtain ⟨before, after, room, same, _⟩ := kept.shown
  refine ⟨before ++ after, [], ?_, ?_⟩
  · rw [same, textOf_append, textOf_nil, List.append_nil]
    rfl
  · rw [same, textOf_append, List.length_append]
    rfl

theorem Kept.stay (kept : Kept w s) : Kept w { s with cPos := s.cPos } := kept.moved kept.consistent.whole

theorem wideAt_prop (inside : Bool) {pos : Int} {prop : Lineprop} (read : Buffer.get s.strProp pos = some prop) :
    wideAt s inside pos = some (inside && isWchar2 prop) := by
  cases inside with
  | false => rfl
  | true =>
      rw [wideAt, read]
      rfl

/-- Where a movement over a word ends in a password: in front of a character of one
byte or two. -/
theorem step_left_short {before after : List (Letter w)} {room : List Lineprop} {letter : Letter w}
    (same : s = s.show (before ++ [letter]) after room) (short : letter.more.length ≤ 1) {wide : Bool}
    (read : wideAt s (0 < s.cPos - 1) (s.cPos - 1) = some wide) :
    (if wide then s.cPos - 1 - 1 else s.cPos - 1) = (textOf before).length := by
  have whole := letter.whole
  have front := propsOf_length s.isPasswd before
  have place : s.cPos = ((textOf before).length + (letter.more.length + 1) : Nat) := by
    rw [same]
    show ((textOf (before ++ [letter])).length : Int) = _
    rw [textOf_append, List.length_append, textOf_cons, textOf_nil, List.append_nil, Letter.bytes_length]
  have props : s.strProp = propsOf s.isPasswd before ++
      (letter.props s.isPasswd ++ (propsOf s.isPasswd after ++ room)) := by
    refine (congrArg LineInput.strProp same).trans ?_
    simp [LineInput.show, LineInput.split, propsOf_cons]
  rcases Nat.le_one_iff_eq_zero_or_eq_one.mp short with single | pair
  · have got : Buffer.get s.strProp (s.cPos - 1) = some (charType w s.isPasswd letter.lead) := by
      have at' : s.cPos - 1 = (propsOf s.isPasswd before).length := by omega
      rw [props, at', Letter.props, List.cons_append, Buffer.get_append]
    rw [wideAt_prop _ got, charType_single s.isPasswd (by omega), Bool.and_false, Option.some.injEq] at read
    rw [← read, if_neg (by simp)]
    omega
  · have got : Buffer.get s.strProp (s.cPos - 1) = some (behindFirst (charType w s.isPasswd letter.lead)) := by
      have at' : s.cPos - 1 = (propsOf s.isPasswd before ++ [charType w s.isPasswd letter.lead]).length := by
        rw [List.length_append, List.length_singleton]
        omega
      have shape : s.strProp = (propsOf s.isPasswd before ++ [charType w s.isPasswd letter.lead]) ++
          behindFirst (charType w s.isPasswd letter.lead) :: (propsOf s.isPasswd after ++ room) := by
        rw [props, Letter.props, pair]
        simp
      rw [at', shape, Buffer.get_append]
    have positive : decide (0 < s.cPos - 1) = true := by
      rw [decide_eq_true_eq]
      omega
    rw [wideAt_prop _ got, behindFirst_wchar2, positive, Bool.and_true, Option.some.injEq] at read
    rw [← read, if_pos rfl]
    omega

theorem mvLw_kept (convert : List UInt8 → List UInt8) (kept : Kept w s) (stops : Condition w convert s .mvLw) :
    ∃ next, mvLw s = some next ∧ Kept w next := by
  obtain ⟨lower, upper, length, fits⟩ := kept.sizes
  rw [Condition] at stops
  by_cases word : s.moveWord = true
  · rw [if_pos word] at stops
    obtain ⟨pos, ran, reached, zero, below, ending⟩ :=
      mvLwLoop_word true s.cPos word fits lower (by omega) .start (.inl ⟨rfl, rfl⟩)
    refine ⟨{ s with cPos := pos }, by rw [mvLw, ran]; rfl, kept.moved ?_⟩
    by_cases begins : pos = 0
    · rw [begins]
      exact kept.start
    · obtain ⟨behind, less⟩ := ending.resolve_left begins
      exact stops pos reached (by omega) less behind
  · rw [if_neg word] at stops
    by_cases inside : 0 < s.cPos
    · obtain ⟨wide, read, more⟩ := wideAt_exists (decide (0 < s.cPos - 1)) (s.cPos - 1) fits
        (by rw [decide_eq_true_eq]; omega)
      have ran := mvLwLoop_single (Bool.eq_false_of_not_eq_true word) inside read
      refine ⟨_, by rw [mvLw, ran]; rfl, kept.moved ?_⟩
      obtain ⟨before, after, room, same, sized⟩ := kept.shown
      have place : s.cPos = (textOf before).length := by
        rw [same]
        rfl
      rcases List.eq_nil_or_concat before with rfl | ⟨front, letter, rfl⟩
      · rw [place] at inside
        simp at inside
      · rw [List.concat_eq_append] at same place
        have text : s.strBuf = textOf (front ++ letter :: after) := by
          rw [same]
          simp [LineInput.show, LineInput.split, textOf_cons]
        rw [textOf_append, List.length_append, textOf_cons, textOf_nil, List.append_nil] at place
        have short : letter.more.length ≤ 1 := by
          rw [text] at stops
          rcases stops with none | one | two
          · omega
          · have := one.outside
            rw [Letter.bytes_length] at this place
            omega
          · have := two.outside
            rw [Letter.bytes_length] at this place
            omega
        rw [step_left_short same short read, text]
        rw [textOf_append]
        exact Boundary.of_letters front (letter :: after)
    · exact ⟨_, by rw [mvLw, mvLwLoop, if_neg inside]; rfl, kept.stay⟩

theorem step_right_short {before after : List (Letter w)} {room : List Lineprop} {letter : Letter w}
    (same : s = s.show before (letter :: after) room)
    (short : letter.more.length = 1 ∨ letter.more.length = 0 ∧ joinedBehind s (s.cPos + 1) = 0) {wide : Bool}
    (read : wideAt s (s.cPos + 1 < s.cLen) (s.cPos + 1) = some wide) :
    (if wide then s.cPos + 1 + 1 else s.cPos + 1) = (textOf (before ++ [letter])).length := by
  have front := propsOf_length s.isPasswd before
  have place : s.cPos = (textOf before).length := by
    rw [same]
    rfl
  have length : s.cLen = ((textOf before).length + (letter.more.length + 1 + (textOf after).length) : Nat) := by
    rw [same]
    show (((textOf before).length + (textOf (letter :: after)).length : Nat) : Int) = _
    rw [textOf_cons, List.length_append, Letter.bytes_length]
  have props : s.strProp = propsOf s.isPasswd before ++
      (letter.props s.isPasswd ++ (propsOf s.isPasswd after ++ room)) := by
    refine (congrArg LineInput.strProp same).trans ?_
    simp [LineInput.show, LineInput.split, propsOf_cons]
  have here : s.cPos + 1 = (propsOf s.isPasswd before ++ [charType w s.isPasswd letter.lead]).length := by
    rw [List.length_append, List.length_singleton]
    omega
  rw [textOf_append, List.length_append, textOf_cons, textOf_nil, List.append_nil, Letter.bytes_length]
  rcases short with pair | ⟨single, alone⟩
  · have got : Buffer.get s.strProp (s.cPos + 1) = some (behindFirst (charType w s.isPasswd letter.lead)) := by
      have shape : s.strProp = (propsOf s.isPasswd before ++ [charType w s.isPasswd letter.lead]) ++
          behindFirst (charType w s.isPasswd letter.lead) :: (propsOf s.isPasswd after ++ room) := by
        rw [props, Letter.props, pair]
        simp
      rw [here, shape, Buffer.get_append]
    have inside : decide (s.cPos + 1 < s.cLen) = true := by
      rw [decide_eq_true_eq]
      omega
    rw [wideAt_prop _ got, behindFirst_wchar2, inside, Bool.and_true, Option.some.injEq] at read
    rw [← read, if_pos rfl]
    omega
  · have narrow : wide = false := by
      have joined := joinedBehind_show s before (letter :: after) room 1
      rw [← same, ← place, propsOf_cons, Letter.props, List.length_eq_zero_iff.mp single, List.length_nil,
        List.replicate_zero, List.singleton_append, List.drop_one, List.tail_cons] at joined
      cases behind : propsOf s.isPasswd after with
      | nil =>
          have ended : ¬ s.cPos + 1 < s.cLen := by
            have := propsOf_length s.isPasswd after
            rw [behind, List.length_nil] at this
            omega
          rw [wideAt, if_neg (by simpa using ended), Option.some.injEq] at read
          exact read.symm
      | cons prop more =>
          have shape : s.strProp = (propsOf s.isPasswd before ++ [charType w s.isPasswd letter.lead]) ++
              prop :: (more ++ room) := by
            rw [props, Letter.props, single, behind]
            simp
          have got : Buffer.get s.strProp (s.cPos + 1) = some prop := by
            rw [here, shape, Buffer.get_append]
          have starts : isWchar2 prop = false := by
            by_contra isWide
            rw [Bool.not_eq_false] at isWide
            rw [behind, List.takeWhile_cons_of_pos isWide, List.length_cons] at joined
            rw [Int.natCast_one, alone] at joined
            omega
          rw [wideAt_prop _ got, starts, Bool.and_false, Option.some.injEq] at read
          exact read.symm
    rw [narrow, if_neg (by simp)]
    omega

theorem mvRw_kept (convert : List UInt8 → List UInt8) (kept : Kept w s) (stops : Condition w convert s .mvRw) :
    ∃ next, mvRw s = some next ∧ Kept w next := by
  obtain ⟨lower, upper, length, fits⟩ := kept.sizes
  rw [Condition] at stops
  by_cases word : s.moveWord = true
  · rw [if_pos word] at stops
    obtain ⟨pos, ran, reached, above, limit, ending⟩ :=
      mvRwLoop_word true s.cPos word fits length lower upper .start (.inl ⟨rfl, rfl⟩)
    refine ⟨{ s with cPos := pos }, by rw [mvRw, ran]; rfl, kept.moved ?_⟩
    by_cases ends : pos = s.cLen
    · rw [ends]
      exact kept.finish
    · obtain ⟨behind, more⟩ := ending.resolve_left ends
      exact stops pos reached more (by omega) behind
  · rw [if_neg word] at stops
    by_cases inside : s.cPos < s.cLen
    · obtain ⟨wide, read, more⟩ := wideAt_exists (decide (s.cPos + 1 < s.cLen)) (s.cPos + 1) fits
        (by rw [decide_eq_true_eq]; omega)
      have ran := mvRwLoop_single (Bool.eq_false_of_not_eq_true word) inside read
      refine ⟨_, by rw [mvRw, ran]; rfl, kept.moved ?_⟩
      obtain ⟨before, after, room, same, sized⟩ := kept.shown
      have place : s.cPos = (textOf before).length := by
        rw [same]
        rfl
      cases after with
      | nil =>
          have ended : s.cLen = s.cPos := by
            rw [same]
            simp [LineInput.show, LineInput.split]
          omega
      | cons letter after =>
          have whole := letter.whole
          obtain ⟨c, char, short⟩ := stops.resolve_left (by omega)
          have lead : c = letter.lead := by
            have got := Buffer.get_append (textOf before) letter.lead (letter.more ++ (textOf after ++ [0]))
            have text : s.strBuf ++ [0] = textOf before ++ letter.lead :: (letter.more ++ (textOf after ++ [0])) := by
              rw [same]
              simp [LineInput.show, LineInput.split, textOf_cons, Letter.bytes]
            rw [LineInput.charAt, text, place, got, Option.some.injEq] at char
            exact char.symm
          have sizes : letter.more.length = 1 ∨ letter.more.length = 0 ∧ joinedBehind s (s.cPos + 1) = 0 := by
            rw [lead] at short
            exact short.imp (fun two => by omega) fun one => ⟨by omega, one.2⟩
          have text : s.strBuf = textOf (before ++ [letter]) ++ textOf after := by
            rw [same]
            simp [LineInput.show, LineInput.split, textOf_cons]
          rw [step_right_short same sizes read, text]
          exact Boundary.of_letters (before ++ [letter]) after
    · exact ⟨_, by rw [mvRw, mvRwLoop, if_neg inside]; rfl, kept.stay⟩

end Words

section Sessions

variable {w : Wc} {s : LineInput}

theorem Kept.erasing (kept : Kept w s) : ∃ (before wide rest : List (Letter w)) (room : List Lineprop),
    s = s.show before (wide ++ rest) room ∧ Combining s.isPasswd wide ∧ Starts s.isPasswd rest ∧
      Sized before (wide ++ rest) room ∧ s.cPos = (textOf before).length ∧
      s.cLen = ((textOf before).length + (textOf (wide ++ rest)).length : Nat) ∧
      (before ≠ [] → charsInFront s = charsBefore (textOf wide).length (cellsOf s.isPasswd before)) := by
  obtain ⟨before, after, room, same, sized⟩ := kept.shown
  obtain ⟨wide, rest, rfl, isWide, starts⟩ := combining_behind s.isPasswd after
  refine ⟨before, wide, rest, room, same, isWide, starts, sized, ?_, ?_, fun present => ?_⟩
  · rw [same]
    rfl
  · rw [same]
    rfl
  · have chars := charsInFront_show s room isWide starts present
    rwa [← same] at chars

theorem bsw_kept (kept : Kept w s) (fits : EraseFits s.moveWord s.cLen (charsInFront s)) :
    ∃ next, bsw s = some next ∧ Kept w next := by
  obtain ⟨before, wide, rest, room, same, isWide, starts, sized, place, length, chars⟩ := kept.erasing
  have ran := bswLoop_kept s (textOf before).length kept isWide starts sized (Nat.le_refl _) fun present => by
    rw [← chars present, ← length]
    exact fits
  rw [← same] at ran
  rw [bsw, place, Int.toNat_natCast]
  exact ran

theorem killb_kept (kept : Kept w s) (fits : EraseFits false s.cLen (charsInFront s)) :
    ∃ next, killb s = some next ∧ Kept w next ∧ next.cPos = 0 := by
  obtain ⟨before, wide, rest, room, same, isWide, starts, sized, place, length, chars⟩ := kept.erasing
  have ran := killbLoop_kept s (textOf before).length kept isWide starts sized (Nat.le_refl _) fun present => by
    rw [← chars present, ← length]
    exact fits
  rw [← same] at ran
  rw [killb, place, Int.toNat_natCast]
  exact ran

theorem Kept.loadable (kept : Kept w s) : Loadable w s.strBuf := by
  obtain ⟨before, after, room, same, sized⟩ := kept.shown
  have text : s.strBuf = textOf (before ++ after) := by
    rw [same, textOf_append]
    rfl
  refine ⟨?_, before ++ after, text⟩
  rw [Sized] at sized
  rw [text, textOf_append, List.length_append]
  omega

variable (convert : List UInt8 → List UInt8)

theorem prevEntry_hist {entry : List UInt8 × Hist} (found : prevEntry s = some entry) : s.currentHist.isSome =
    true := by
  rw [prevEntry, Option.bind_eq_bind, Option.bind_eq_some_iff] at found
  obtain ⟨hist, some', _⟩ := found
  rw [some']
  rfl

theorem prev_kept (kept : Kept w s) (loads : Condition w convert s .prev) :
    ∃ next, prev convert w s = some next ∧ Kept w next := by
  rw [Condition] at loads
  rw [prev]
  cases found : prevEntry s with
  | none => exact ⟨s, rfl, kept⟩
  | some entry =>
      obtain ⟨text, hist⟩ := entry
      refine load_kept (s := { s with currentHist := some hist, strCurrentBuf := some (s.strCurrentBuf.getD s.strBuf) })
        kept.consistent.room (loads _ found) fun _ saved same => ?_
      rw [Option.mem_some_iff] at same
      subst same
      cases before : s.strCurrentBuf with
      | none => exact kept.loadable
      | some earlier => exact kept.saved (prevEntry_hist found) earlier (by rw [before]; rfl)

theorem next_kept (kept : Kept w s) (loads : Condition w convert s .next) :
    ∃ next, Linein.next convert w s = some next ∧ Kept w next := by
  rw [Condition] at loads
  rw [Linein.next]
  split
  next hist saved current buf =>
    have prompt : Loadable w saved := kept.saved (by rw [current]; rfl) saved (by rw [buf]; rfl)
    split
    next entry hist' found =>
      apply load_kept (s := { s with currentHist := some hist' }) kept.consistent.room
      · apply loads (entry, hist')
        rw [nextEntry, current, buf]
        exact found
      · intro _ text same
        rw [show text = saved from ?_]
        · exact prompt
        · rw [buf, Option.mem_some_iff] at same
          exact same.symm
    next =>
      exact load_kept (s := { s with strCurrentBuf := none }) kept.consistent.room prompt fun _ text same => by
        cases same
  next => exact ⟨s, rfl, kept⟩

theorem step_kept (kept : Kept w s) (op : Operation w) (holds : Condition w convert s op) :
    ∃ next, step w convert s op = some next ∧ Kept w next := by
  cases op with
  | insChar str => exact insChar_kept kept str
  | insertself key => exact insertself_kept kept key holds
  | delC => exact delC_kept kept holds
  | bs => exact bs_kept kept holds
  | bsw => exact bsw_kept kept holds
  | mvL => exact mvL_kept kept
  | mvR => exact mvR_kept kept
  | mvLw => exact mvLw_kept convert kept holds
  | mvRw => exact mvRw_kept convert kept holds
  | mvB => exact ⟨_, rfl, kept.mvB⟩
  | mvE => exact ⟨_, rfl, kept.mvE⟩
  | killn => exact killn_kept kept
  | killb =>
      obtain ⟨next, ran, kept', _⟩ := killb_kept kept holds
      exact ⟨next, ran, kept'⟩
  | prev => exact prev_kept convert kept holds
  | next => exact next_kept convert kept holds

theorem inputLineHistSearch_kept {strProp : List Lineprop} (size : strProp.length = strLen)
    (strCurrentBuf defStr : Option (List UInt8)) (loads : ∀ str ∈ defStr, Loadable w str) (flag : Nat)
    (hist : Option Hist) :
    ∃ s, inputLineHistSearch w strProp strCurrentBuf defStr flag hist = some s ∧ Kept w s := by
  have fresh : (emptyLine strProp strCurrentBuf flag hist).currentHist.isSome →
      ∀ text ∈ (emptyLine strProp strCurrentBuf flag hist).strCurrentBuf, Loadable w text := by
    intro present text inside
    rw [emptyLine] at present inside
    rw [if_pos present] at inside
    cases inside
  cases defStr with
  | none =>
      refine ⟨_, rfl, ⟨[], [], strProp, ?_, ?_⟩, fresh⟩
      · simp [emptyLine, LineInput.show, LineInput.split]
      · rw [Sized, size, textOf_nil, List.length_nil, Nat.zero_add, Nat.zero_add]
  | some str => exact load_kept size (loads str rfl) fresh

/-- From a prompt whose default can be loaded, every run of operations that meet their
conditions stays inside the buffers, and the line is consistent wherever it ends. -/
theorem lineInput_consistent {strProp : List Lineprop} (size : strProp.length = strLen)
    (strCurrentBuf defStr : Option (List UInt8)) (loads : ∀ str ∈ defStr, Loadable w str) (flag : Nat)
    (hist : Option Hist) :
    ∃ s, inputLineHistSearch w strProp strCurrentBuf defStr flag hist = some s ∧ Consistent w s ∧
      ∀ ops, Run.Admitted (step w convert) (Condition w convert) s ops →
        ∃ final, Run.run (step w convert) s ops = some final ∧ Consistent w final := by
  obtain ⟨s, opened, kept⟩ := inputLineHistSearch_kept size strCurrentBuf defStr loads flag hist
  refine ⟨s, opened, kept.consistent, fun ops admitted => ?_⟩
  obtain ⟨final, ran, kept'⟩ := Run.run_invariant (Kept w) (fun state op held holds => step_kept convert held op holds)
    kept admitted
  exact ⟨final, ran, kept'.consistent⟩

def letterA : Letter Wc.initial := ⟨97, [], rfl⟩

theorem letterA_loadable : ∀ str ∈ some [97], Loadable Wc.initial str := by
  rintro str ⟨⟩
  exact ⟨by decide, [letterA], rfl⟩

theorem lineInput_consistent_letter :
    ∃ s, inputLineHistSearch Wc.initial (List.replicate strLen 0) none (some [97]) 0 none = some s ∧
      Consistent Wc.initial s ∧ ∃ final,
        Run.run (step Wc.initial id) s [.mvB, .insChar [letterA, letterA], .mvL, .killn] = some final ∧
          Consistent Wc.initial final := by
  obtain ⟨s, opened, consistent, runs⟩ := lineInput_consistent (w := Wc.initial) id
    (List.length_replicate : (List.replicate strLen (0 : Lineprop)).length = strLen) none (some [97]) letterA_loadable
    0 none
  refine ⟨s, opened, consistent, runs _ ?_⟩
  simp [Run.Admitted, Condition]

theorem bsw_beginning (single : s.cPos = 1) (word : s.moveWord = true) : bsw s = none := by
  have left : mvL s = some { s with cPos := 0 } := by rw [mvL, single]; rfl
  rw [bsw, single, Int.toNat_one, bswLoop, single, if_pos (by decide), left]
  simp only [Option.bind_eq_bind, Option.bind_some, word, if_true]
  rfl

/-- One letter in the line, and the word in front of the cursor erased: the test for a
delimiter is behind the step to the left, at the beginning of the line. -/
theorem lineInput_bsw :
    ∃ s, inputLineHistSearch Wc.initial (List.replicate strLen 0) none (some [97]) 0 none = some s ∧
      Consistent Wc.initial s ∧ step Wc.initial id s .bsw = none := by
  have size : (List.replicate strLen (0 : Lineprop)).length = strLen := List.length_replicate
  have short : (textOf [letterA]).length ≤ strLen := by decide
  have typed := setStrType_letters false [letterA] short size
  obtain ⟨s, opened, kept⟩ := inputLineHistSearch_kept (w := Wc.initial) size none (some [97]) letterA_loadable 0 none
  refine ⟨s, opened, kept.consistent, ?_⟩
  have loaded : (emptyLine (List.replicate strLen 0) none 0 none).load Wc.initial (textOf [letterA]) = some s := opened
  have prop : (emptyLine (List.replicate strLen 0) none 0 none).strProp = List.replicate strLen 0 := rfl
  have shown : (emptyLine (List.replicate strLen 0) none 0 none).isPasswd = false := rfl
  rw [LineInput.load, shown, prop, typed, Option.bind_eq_bind, Option.bind_some, Option.some.injEq] at loaded
  apply bsw_beginning
  · rw [← loaded]
    rfl
  · rw [← loaded]
    rfl

end Sessions

end KcnTools.W3m.Linein
