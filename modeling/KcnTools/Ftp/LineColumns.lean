import KcnTools.Ftp.LineReads

/-!
The columns of a Unix line up to the name. The only position behind the end that is read is the
one `memchr` gets to behind the last blank of a symbolic link without an arrow.
-/

namespace KcnTools.FtpLine

open CheckedRead CheckedRead.Read
open Date (Tm isdigit digit month2num clearTm)
open Ftp (FtpFileType FtpUnix ftpSizeUnknown offtMax ftpNumber fileType)

/-! Slices of the line. -/

def Slice.Inside (line : List UInt8) (slice : Slice) : Prop :=
  0 ≤ slice.length ∧ slice.source + slice.length ≤ line.length

structure FtpFileInfo.Inside (line : List UInt8) (info : FtpFileInfo) : Prop where
  name : ∀ slice ∈ info.name, slice.Inside line
  symlink : ∀ slice ∈ info.symlink, slice.Inside line

theorem dropTrailing_safe {line : List UInt8} {slice : Slice} (inside : slice.Inside line) (c : UInt8) :
    (dropTrailing line slice c).Safe fun slice => slice.Inside line := by
  obtain ⟨positive, within⟩ := inside
  rw [dropTrailing]
  refine Meets.ite (fun filled => ?_) fun _ => ⟨positive, within⟩
  refine (element_safe (by omega)).bind fun other _ => ?_
  show Slice.Inside line (if other = c then { slice with length := slice.length - 1 } else slice)
  split
  · exact ⟨by show 0 ≤ slice.length - 1; omega, by show slice.source + (slice.length - 1) ≤ line.length; omega⟩
  · exact ⟨positive, within⟩

/-! The search for the arrow. -/

def arrow : List UInt8 := [32, 45, 62, 32]

def LongTail (text : List UInt8) : Prop :=
  ¬ arrow <:+: text ∧ ∃ tail, 32 :: tail <:+ text ∧ 32 ∉ tail ∧ 3 ≤ tail.length

theorem longTail_cons {c : UInt8} {rest : List UInt8} (noArrow : ¬ arrow <+: c :: rest)
    (later : 32 ∈ rest ∨ c ≠ 32) : LongTail (c :: rest) ↔ LongTail rest := by
  apply and_congr
  · rw [List.infix_cons_iff, or_iff_right noArrow]
  · refine exists_congr fun tail => ?_
    constructor
    · rintro ⟨suffix, clean, long⟩
      refine ⟨(List.suffix_cons_iff.mp suffix).resolve_left fun same => ?_, clean, long⟩
      obtain ⟨rfl, rfl⟩ := List.cons.inj same
      exact later.elim clean fun differ => differ rfl
    · rintro ⟨suffix, clean, long⟩
      exact ⟨suffix.trans (List.suffix_cons c rest), clean, long⟩

theorem longTail_word {word rest : List UInt8} (clean : 32 ∉ word) : LongTail (word ++ rest) ↔ LongTail rest := by
  induction word with
  | nil => rfl
  | cons c word ih =>
      have differ : c ≠ 32 := fun same => clean (same ▸ List.mem_cons_self)
      rw [List.cons_append, longTail_cons _ (.inr differ), ih fun member => clean (.tail _ member)]
      rintro ⟨back, same⟩
      exact differ (List.cons.inj same).1.symm

theorem searchArrow_reads {line : List UInt8} {pos : Nat} (start : pos ≤ line.length)
    (blank : ∀ c ∈ (line.drop pos).head?, c = 32) :
    (LongTail (line.drop pos) → searchArrow line pos = beyond) ∧
      (¬ LongTail (line.drop pos) →
        (searchArrow line pos).Safe fun found => ∀ i ∈ found, pos ≤ i ∧ i + 4 ≤ line.length) := by
  induction left : line.length - pos using Nat.strongRecOn generalizing pos with
  | ind left ih =>
      subst left
      rw [searchArrow]
      split
      next near =>
        obtain ⟨c, rest, text⟩ := List.exists_cons_of_ne_nil
          (List.drop_eq_nil_iff.not.mpr (show ¬ line.length ≤ pos by omega))
        have length := congrArg List.length text
        rw [List.length_drop, List.length_cons] at length
        obtain rfl : c = 32 := blank c (by rw [text]; rfl)
        rw [elements, if_pos (by omega), value_bind]
        by_cases here : (line.drop pos).take 4 = [32, 45, 62, 32]
        · rw [if_pos here]
          refine ⟨fun long => absurd ?_ long.1, fun _ i found => ?_⟩
          · refine List.IsPrefix.isInfix ?_
            rw [arrow, ← here]
            exact List.take_prefix 4 _
          · cases found
            exact ⟨Nat.le_refl _, by omega⟩
        · rw [if_neg here]
          have noArrow : ¬ arrow <+: 32 :: rest := by
            intro prefixed
            rw [text] at here
            exact here (List.prefix_iff_eq_take.mp prefixed).symm
          by_cases more : 32 ∈ rest
          · obtain ⟨before, after, rfl, clean⟩ := List.eq_append_cons_of_mem more
            rw [List.length_append, List.length_cons] at length
            have found : memchr line 32 (line.length - pos) (pos + 1) = value (some (pos + 1 + before.length)) :=
              memchr_found (drop_succ text) clean (by omega)
            have behind : line.drop (pos + 1 + before.length) = 32 :: after := by
              rw [← List.drop_drop, drop_succ text, List.drop_left]
            have next := @ih (line.length - (pos + 1 + before.length)) (by omega) (pos + 1 + before.length)
              (by omega) (by rw [behind]; rintro c ⟨⟩; rfl) rfl
            rw [text, longTail_cons noArrow (.inl more), longTail_word clean, ← behind]
            split
            next same => rw [found] at same; cases same
            next same => rw [found] at same; cases same
            next same => rw [found] at same; cases same
            next other same =>
              rw [found] at same
              cases same
              refine ⟨next.1, fun short => (next.2 short).imp fun result bounds i member => ?_⟩
              have := bounds i member
              omega
          · have missing : 32 ∉ line.drop (pos + 1) := by rwa [drop_succ text]
            have far : (line.drop (pos + 1)).length < line.length - pos := by
              rw [drop_succ text]
              omega
            have outside := memchr_beyond missing far
            have long : LongTail (line.drop pos) := by
              rw [text]
              refine ⟨fun infixed => ?_, rest, List.suffix_refl _, more, by omega⟩
              have member := (List.infix_cons_iff.mp infixed).resolve_left noArrow
              exact more (member.subset (List.mem_cons_self))
            refine ⟨fun _ => ?_, fun short => absurd long short⟩
            split
            next => rfl
            next same => rw [outside] at same; cases same
            next same => rw [outside] at same; cases same
            next same => rw [outside] at same; cases same
      next far =>
        refine ⟨?_, fun _ => nofun⟩
        rintro ⟨-, tail, suffix, -, long⟩
        have := suffix.length_le
        rw [List.length_drop, List.length_cons] at this
        omega

/-! A name in the line. -/

section Names

variable {line : List UInt8} {info : FtpFileInfo} {src pos : Nat}

theorem unixSymlink_beyond (bound : pos ≤ line.length) (blank : ∀ c ∈ (line.drop pos).head?, c = 32)
    (long : LongTail (line.drop pos)) : unixSymlink line info src pos = beyond := by
  rw [unixSymlink, (searchArrow_reads bound blank).1 long]
  rfl

theorem unixSymlink_safe (inside : info.Inside line) (later : src ≤ pos) (bound : pos ≤ line.length)
    (blank : ∀ c ∈ (line.drop pos).head?, c = 32) (short : ¬ LongTail (line.drop pos)) :
    (unixSymlink line info src pos).Safe fun info => info.Inside line := by
  rw [unixSymlink]
  refine ((searchArrow_reads bound blank).2 short).bind fun found bounds => ?_
  cases found with
  | none =>
      have whole : Slice.Inside line ⟨src, line.length - src⟩ :=
        ⟨by show 0 ≤ (line.length : Int) - src; omega, by show src + ((line.length : Int) - src) ≤ line.length; omega⟩
      refine (dropTrailing_safe whole 64).bind fun name within => ⟨?_, inside.symlink⟩
      rintro slice ⟨⟩
      exact within
  | some i =>
      have := bounds i rfl
      have name : Slice.Inside line ⟨src, i - src⟩ :=
        ⟨by show 0 ≤ (i : Int) - src; omega, by show src + ((i : Int) - src) ≤ line.length; omega⟩
      have target : Slice.Inside line ⟨i + 4, line.length - i - 4⟩ := by
        constructor
        · show 0 ≤ (line.length : Int) - i - 4
          omega
        · show ((i + 4 : Nat) : Int) + ((line.length : Int) - i - 4) ≤ line.length
          omega
      refine (dropTrailing_safe name 64).bind fun name within => ?_
      refine (dropTrailing_safe target 47).bind fun symlink among => ⟨?_, ?_⟩
      · rintro slice ⟨⟩
        exact within
      · rintro slice ⟨⟩
        exact among

theorem unixName_beyond (bound : pos ≤ line.length) (blank : ∀ c ∈ (line.drop pos).head?, c = 32)
    (link : info.type = .symlink) (long : LongTail (line.drop pos)) : unixName line info src pos = beyond := by
  rw [unixName, link]
  exact unixSymlink_beyond bound blank long

theorem unixName_safe (inside : info.Inside line) (later : src ≤ pos) (bound : pos ≤ line.length)
    (blank : ∀ c ∈ (line.drop pos).head?, c = 32) (short : ¬ (info.type = .symlink ∧ LongTail (line.drop pos))) :
    (unixName line info src pos).Safe fun info => info.Inside line := by
  have whole : Slice.Inside line ⟨src, line.length - src⟩ :=
    ⟨by show 0 ≤ (line.length : Int) - src; omega, by show src + ((line.length : Int) - src) ≤ line.length; omega⟩
  have named : ∀ type, ∀ name : Slice, name.Inside line →
      FtpFileInfo.Inside line { info with type := type, name := some name } := by
    refine fun type name within => ⟨?_, inside.symlink⟩
    rintro slice ⟨⟩
    exact within
  rw [unixName]
  cases type : info.type with
  | directory => exact (dropTrailing_safe whole 47).bind (named _)
  | symlink => exact unixSymlink_safe inside later bound blank fun long => short ⟨type, long⟩
  | plainfile =>
      dsimp only
      split
      · exact (dropTrailing_safe whole 42).bind (named _)
      · exact named _ _ whole
  | unknown => exact named _ _ whole

end Names

/-! The name of a line. -/

def nextColumn (text : List UInt8) : List UInt8 := Ftp.skipSpace (Ftp.skipNonspace text)

def word (text : List UInt8) : List UInt8 := text.takeWhile fun c => decide (c ≠ 32)

def isMonth (word : List UInt8) : Bool :=
  match word with
  | [a, b, c] => month2num (a, b, c) ≠ -1
  | _ => false

def isSize (word : List UInt8) : Bool :=
  (word.head?.map isdigit).getD false && decide (0 ≤ ftpNumber (word.takeWhile isdigit)) &&
    decide (ftpNumber (word.takeWhile isdigit) ≤ offtMax)

/-- The name stands three columns behind the first month that follows a size. The columns are
looked at from a text on, and `sized` says whether a size is in front of it. -/
inductive NameStart : Bool → List UInt8 → List UInt8 → Prop
  | month {text} : isMonth (word text) = true →
      NameStart true text (nextColumn (nextColumn (nextColumn text)))
  | other {sized text name} : text ≠ [] → (sized && isMonth (word text)) = false →
      NameStart (isSize (word text)) (nextColumn text) name → NameStart sized text name

def NameBehind (fact : FtpUnix) (sized : Bool) (text name : List UInt8) : Prop :=
  match fact with
  | .permissions => NameStart sized (nextColumn text) name
  | .size => NameStart sized text name
  | .day => name = nextColumn (nextColumn text)
  | .time => name = nextColumn text
  | .name => name = text

theorem nameStart_cons {sized : Bool} {text name : List UInt8} (filled : text ≠ []) :
    NameStart sized text name ↔
      if (sized && isMonth (word text)) = true then name = nextColumn (nextColumn (nextColumn text))
      else NameStart (isSize (word text)) (nextColumn text) name := by
  constructor
  · intro start
    cases start with
    | month month => rw [Bool.true_and, if_pos month]
    | other filled none next => rwa [if_neg (Bool.eq_false_iff.mp none)]
  · split
    next both =>
      rintro rfl
      rw [Bool.and_eq_true] at both
      rw [both.1]
      exact .month both.2
    next none => exact .other filled (Bool.eq_false_iff.mpr none)

/-! What the columns tell. -/

section Columns

variable {line : List UInt8} {info : FtpFileInfo} {mtime : Tm} {src pos : Nat} {F : Prop}

structure ColumnEnd (line : List UInt8) (src pos : Nat) : Prop where
  start : src < line.length
  later : src ≤ pos
  bound : pos ≤ line.length
  column : (line.drop src).take (pos - src) = word (line.drop src)
  rest : line.drop pos = Ftp.skipNonspace (line.drop src)

theorem skipNonspaceEnd_column (start : src < line.length) :
    ∃ pos, skipNonspaceEnd line src = value pos ∧ ColumnEnd line src pos := by
  obtain ⟨pos, same, later, bound, rest, count⟩ := skipNonspaceEnd_drop (Nat.le_of_lt start)
  refine ⟨pos, same, start, later, bound, ?_, rest⟩
  rw [count, Nat.add_sub_cancel_left, word]
  exact (List.prefix_iff_eq_take.mp (List.takeWhile_prefix _)).symm

theorem ColumnEnd.blank (column : ColumnEnd line src pos) : ∀ c ∈ (line.drop pos).head?, c = 32 := by
  intro c head
  rw [column.rest, Ftp.skipNonspace] at head
  have := List.head?_dropWhile_not (fun c : UInt8 => decide (c ≠ 32)) (line.drop src)
  rw [head] at this
  simpa using this

theorem ColumnEnd.head (column : ColumnEnd line src pos) :
    ∃ c, element line src = value c ∧ (c = 32 ∧ word (line.drop src) = [] ∨ ∃ rest, word (line.drop src) = c :: rest) := by
  obtain ⟨c, rest, text⟩ := List.exists_cons_of_ne_nil (List.drop_eq_nil_iff.not.mpr (Nat.not_le.mpr column.start))
  refine ⟨c, element_drop text, ?_⟩
  rw [word, text]
  by_cases blank : c = 32
  · left
    rw [List.takeWhile_cons_of_neg (by simp [blank])]
    exact ⟨blank, rfl⟩
  · right
    rw [List.takeWhile_cons_of_pos (by simp [blank])]
    exact ⟨_, rfl⟩

theorem ColumnEnd.length (column : ColumnEnd line src pos) : (word (line.drop src)).length = pos - src := by
  have := column.later
  have := column.bound
  rw [← column.column, List.length_take, List.length_drop]
  omega

theorem ColumnEnd.number (column : ColumnEnd line src pos) (lower upper : Int) :
    ∃ next, parseFtpNumber line pos src lower upper =
      value (if ftpNumber ((word (line.drop src)).takeWhile isdigit) < lower ∨
        upper < ftpNumber ((word (line.drop src)).takeWhile isdigit) then -1
        else ftpNumber ((word (line.drop src)).takeWhile isdigit), next) := by
  have := column.later
  have := column.bound
  refine ⟨src + ((word (line.drop src)).takeWhile isdigit).length, ?_⟩
  have digits : (line.drop src).take ((word (line.drop src)).takeWhile isdigit).length =
      (word (line.drop src)).takeWhile isdigit := by
    refine (List.prefix_iff_eq_take.mp ?_).symm
    exact (List.takeWhile_prefix _).trans (List.takeWhile_prefix _)
  rw [parseFtpNumber, skipWhile_take isdigit (by omega), value_bind, column.column, Nat.add_sub_cancel_left, digits]

theorem ColumnEnd.month (column : ColumnEnd line src pos) :
    (unixMonth line info src pos).Meets F fun r =>
      r.1 ≠ -1 ↔ (decide (info.size ≠ ftpSizeUnknown) && isMonth (word (line.drop src))) = true := by
  have length := column.length
  have later := column.later
  have bound := column.bound
  rw [unixMonth]
  split
  next looked =>
    obtain ⟨sized, three⟩ := looked
    rw [three] at length
    rw [decide_eq_true sized, Bool.true_and]
    obtain ⟨a, b, c, letters⟩ := List.length_eq_three.mp length
    obtain ⟨behind, same⟩ : ∃ behind, line.drop src = a :: b :: c :: behind := by
      obtain ⟨behind, same⟩ := List.takeWhile_prefix (fun c : UInt8 => decide (c ≠ 32)) (l := line.drop src)
      rw [word] at letters
      exact ⟨behind, by rw [← same, letters]; rfl⟩
    rw [letters, isMonth, decide_eq_true_eq, parseMonth, if_neg (by omega), element_drop same, value_bind,
      element_drop (drop_succ same), value_bind, element_drop (drop_succ (drop_succ same)), value_bind]
    have nul : ∀ x y : UInt8, month2num (0, x, y) = -1 ∧ month2num (x, 0, y) = -1 ∧ month2num (x, y, 0) = -1 := by
      intro x y
      refine ⟨?_, ?_, ?_⟩ <;> (unfold month2num; simp)
    refine Meets.ite (fun zero => ?_) fun _ => Meets.ite (fun zero => ?_) fun _ => Meets.ite (fun zero => ?_) fun _ => ?_
    · rw [zero]
      exact iff_of_false (fun differ => differ rfl) fun differ => differ (nul b c).1
    · rw [zero]
      exact iff_of_false (fun differ => differ rfl) fun differ => differ (nul a c).2.1
    · rw [zero]
      exact iff_of_false (fun differ => differ rfl) fun differ => differ (nul a b).2.2
    · exact Iff.rfl
  next other =>
    refine iff_of_false (fun differ => differ rfl) fun both => other ?_
    rw [Bool.and_eq_true, decide_eq_true_eq] at both
    refine ⟨both.1, ?_⟩
    have month := both.2
    unfold isMonth at month
    split at month
    next letters => rw [← length, letters]; rfl
    next => cases month

theorem isSize_iff {c : UInt8} {rest : List UInt8} :
    isSize (c :: rest) = true ↔ isdigit c = true ∧
      ¬ (ftpNumber ((c :: rest).takeWhile isdigit) < 0 ∨ offtMax < ftpNumber ((c :: rest).takeWhile isdigit)) := by
  simp [isSize, and_assoc]

/-- What a column that has been read leaves for the following ones -/
structure FactRead (line : List UInt8) (fact : FtpUnix) (info : FtpFileInfo) (text : List UInt8)
    (r : FtpUnix × FtpFileInfo × Tm) : Prop where
  inside : r.2.1.Inside line
  type : r.2.1.type = info.type
  name : ∀ name, NameBehind fact (decide (info.size ≠ ftpSizeUnknown)) text name ↔
    NameBehind r.1 (decide (r.2.1.size ≠ ftpSizeUnknown)) (nextColumn text) name

theorem ColumnEnd.sizeRead (column : ColumnEnd line src pos) (inside : info.Inside line) :
    (unixSize line info mtime src pos).Meets F (FactRead line .size info (line.drop src)) := by
  have filled : line.drop src ≠ [] := List.drop_eq_nil_iff.not.mpr (Nat.not_le.mpr column.start)
  have names : ∀ name, NameBehind .size (decide (info.size ≠ ftpSizeUnknown)) (line.drop src) name ↔ _ :=
    fun name => nameStart_cons filled
  rw [unixSize]
  refine column.month.bind fun r month => Meets.ite (fun found => ?_) fun none => ?_
  · refine ⟨inside, rfl, fun name => ?_⟩
    rw [names, if_pos (month.mp found)]
    rfl
  · have other := fun both => none (month.mpr both)
    obtain ⟨c, same, first⟩ := column.head
    rw [same, value_bind]
    have known : ∀ size : Int, (size ≠ ftpSizeUnknown ↔ isSize (word (line.drop src)) = true) →
        FactRead line .size info (line.drop src) (.size, { info with size }, mtime) := by
      refine fun size same => ⟨⟨inside.name, inside.symlink⟩, rfl, fun name => ?_⟩
      rw [names, if_neg other]
      show NameStart (isSize (word (line.drop src))) _ name ↔ NameStart (decide (size ≠ ftpSizeUnknown)) _ name
      rw [Bool.eq_iff_iff.mpr (decide_eq_true_iff.trans same)]
    refine Meets.ite (fun nodigit => known _ ?_) fun digit => ?_
    · refine iff_of_false (fun differ => differ rfl) fun size => ?_
      rcases first with ⟨-, empty⟩ | ⟨rest, letters⟩
      · rw [empty] at size
        cases size
      · rw [letters] at size
        exact nodigit (isSize_iff.mp size).1
    · rw [Decidable.not_not] at digit
      obtain ⟨next, number⟩ := column.number 0 offtMax
      rw [number, value_bind]
      refine known _ ?_
      rcases first with ⟨rfl, -⟩ | ⟨rest, letters⟩
      · cases digit
      · rw [letters, isSize_iff, and_iff_right digit]
        constructor
        · exact fun differ range => differ (if_pos range)
        · intro range
          rw [if_neg range]
          have : ftpSizeUnknown = -1 := rfl
          omega

theorem ColumnEnd.timeRead (column : ColumnEnd line src pos) :
    (unixTime line mtime src pos).Meets F fun _ => True := by
  obtain ⟨c, same, -⟩ := column.head
  have later := column.later
  have bound := column.bound
  have start := column.start
  rw [unixTime, same, value_bind]
  refine Meets.ite (fun _ => trivial) fun _ => ?_
  refine (memchr_safe 58 (by omega)).bind fun colon _ => ?_
  cases colon with
  | none => exact (parseYear_safe bound (Nat.le_of_lt start)).bind fun _ _ => trivial
  | some i =>
      refine Meets.bind (P := fun _ => True) ?_ fun _ _ => trivial
      exact Safe.orElse ((parseTime_safe bound mtime src).imp fun _ _ => trivial) trivial

theorem ColumnEnd.factRead (column : ColumnEnd line src pos) (inside : info.Inside line) {fact : FtpUnix}
    (before : fact ≠ .name) : (unixFact line fact info mtime src pos).Meets F (FactRead line fact info (line.drop src)) := by
  have later := column.later
  have bound := column.bound
  cases fact with
  | permissions =>
      refine Meets.ite (fun nine => ?_) fun _ => ⟨inside, rfl, fun name => Iff.rfl⟩
      refine (elements_safe (by omega)).bind fun token _ => ?_
      exact ⟨⟨inside.name, inside.symlink⟩, rfl, fun name => Iff.rfl⟩
  | size => exact column.sizeRead inside
  | day =>
      exact (parseDay_safe bound (Nat.le_of_lt column.start)).bind fun r _ => ⟨inside, rfl, fun name => Iff.rfl⟩
  | time => exact column.timeRead.bind fun tm _ => ⟨inside, rfl, fun name => Iff.rfl⟩
  | name => exact absurd rfl before

def LinkCut (fact : FtpUnix) (info : FtpFileInfo) (text : List UInt8) : Prop :=
  info.type = .symlink ∧
    ∃ name, NameBehind fact (decide (info.size ≠ ftpSizeUnknown)) text name ∧ LongTail name

theorem linkCut_nil {fact : FtpUnix} : ¬ LinkCut fact info [] := by
  have none : ∀ {sized name}, ¬ NameStart sized [] name := by
    intro sized name start
    cases start with
    | month month => cases month
    | other filled => exact filled rfl
  have short : ¬ LongTail [] := by
    rintro ⟨-, tail, suffix, -⟩
    exact absurd suffix.length_le (by simp)
  rintro ⟨-, name, behind, long⟩
  cases fact with
  | permissions => exact none behind
  | size => exact none behind
  | day =>
      obtain rfl : name = [] := behind
      exact short long
  | time =>
      obtain rfl : name = [] := behind
      exact short long
  | name =>
      obtain rfl : name = [] := behind
      exact short long

theorem unixFacts_reads (now : Tm) {fact : FtpUnix} (start : src ≤ line.length) (inside : info.Inside line) :
    (LinkCut fact info (line.drop src) → unixFacts line now fact info mtime src = beyond) ∧
      (¬ LinkCut fact info (line.drop src) →
        (unixFacts line now fact info mtime src).Safe fun info => info.Inside line) := by
  induction left : line.length - src using Nat.strongRecOn generalizing fact info mtime src with
  | ind left ih =>
      subst left
      rw [unixFacts]
      split
      next more =>
        obtain ⟨pos, same, column⟩ := skipNonspaceEnd_column more
        split
        next wrong => rw [same] at wrong; cases wrong
        next wrong => rw [same] at wrong; cases wrong
        next found right =>
          rw [same] at right
          cases right
          split
          next atName =>
            subst atName
            have cut : LinkCut .name info (line.drop src) ↔ info.type = .symlink ∧ LongTail (line.drop pos) := by
              refine and_congr_right fun _ => ?_
              have parts : word (line.drop src) ++ line.drop pos = line.drop src := by
                rw [column.rest]
                exact List.takeWhile_append_dropWhile
              have clean : 32 ∉ word (line.drop src) := fun member => by
                simpa using List.mem_takeWhile_imp member
              rw [← longTail_word clean, parts]
              constructor
              · rintro ⟨name, rfl, long⟩
                exact long
              · exact fun long => ⟨_, rfl, long⟩
            rw [cut]
            refine ⟨fun long => ?_, fun short => ?_⟩
            · rw [unixName_beyond column.bound column.blank long.1 long.2]
              rfl
            · refine (unixName_safe inside column.later column.bound column.blank short).bind fun info within => ?_
              exact ⟨within.name, within.symlink⟩
          next before =>
            obtain ⟨⟨fact', info', mtime'⟩, done, read⟩ : ∃ r, unixFact line fact info mtime src pos = value r ∧
                FactRead line fact info (line.drop src) r := (column.factRead inside before).value
            obtain ⟨next, blanks, -, bound, text⟩ := skipSpaceEnd_drop column.bound
            have further := column_later more same blanks
            rw [column.rest] at text
            have cut : LinkCut fact info (line.drop src) ↔ LinkCut fact' info' (line.drop next) := by
              rw [text, LinkCut, LinkCut, ← read.type]
              exact and_congr_right fun _ => exists_congr fun name => and_congr_left fun _ => read.name name
            rw [done, value_bind, cut]
            dsimp only
            split
            next wrong => rw [blanks] at wrong; cases wrong
            next wrong => rw [blanks] at wrong; cases wrong
            next other right =>
              rw [blanks] at right
              cases right
              exact ih (line.length - next) (by omega) bound read.inside rfl
      next empty =>
        rw [List.drop_eq_nil_iff.mpr (Nat.not_lt.mp empty)]
        exact ⟨fun cut => absurd cut linkCut_nil, fun _ => trivial⟩

/-- Links are lines that begin with `l`; the name starts behind the permissions, the first size with
a month behind it, the day and the time. -/
def SymlinkCut (line : List UInt8) : Prop :=
  line.head? = some 108 ∧ ∃ name, NameStart false (nextColumn (line.drop 1)) name ∧ LongTail name

theorem parseFtpUnixResponse_reads (now : Tm) (filled : 0 < line.length) (inside : info.Inside line)
    (unknown : info.size = ftpSizeUnknown) :
    (SymlinkCut line → parseFtpUnixResponse line now info = beyond) ∧
      (¬ SymlinkCut line → (parseFtpUnixResponse line now info).Safe fun info => info.Inside line) := by
  obtain ⟨c, rest, rfl⟩ := List.exists_cons_of_length_pos filled
  have link : fileType c = .symlink ↔ c = 108 := by
    unfold fileType
    split <;> simp_all
  have cut : SymlinkCut (c :: rest) ↔ LinkCut .permissions { info with type := fileType c } ((c :: rest).drop 1) := by
    rw [SymlinkCut, LinkCut]
    refine and_congr ?_ ?_
    · rw [List.head?_cons, Option.some.injEq]
      exact link.symm
    · rw [decide_eq_false (fun differ => differ unknown)]
      exact Iff.rfl
  rw [cut, parseFtpUnixResponse]
  exact unixFacts_reads now filled ⟨inside.name, inside.symlink⟩

end Columns

end KcnTools.FtpLine
