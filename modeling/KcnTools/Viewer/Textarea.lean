import KcnTools.Protocol.ProtocolTable
import Mathlib.Data.List.Chain

/-! The lines of a textarea (viewer/text/textarea.c): how its text is laid out, which line a cursor is in,
and how the cursor moves between lines. Positions are not bounded: they are of type
`int` in the code, and a form keeps its value shorter than 2^31 bytes. -/

namespace KcnTools.Viewer

open Protocols (byteAt)

inductive FormWrap where
  | none
  | soft
  | hard
deriving DecidableEq

structure LineInfo where
  start : Nat
  stop : Nat
deriving DecidableEq

def memrchr (text : List UInt8) (c : UInt8) (begin : Nat) : Nat → Option Nat
  | 0 => none
  | n + 1 => if byteAt text (begin + n) = c then some (begin + n) else memrchr text c begin n

def formatLoop (width : Nat) (wrap : FormWrap) (format : Bool) :
    Nat → List UInt8 → Nat → Nat → Option (List LineInfo × List UInt8)
  | 0, _, _, _ => none
  | fuel + 1, text, begin, pos =>
    if byteAt text pos = 0 then some ([⟨begin, pos⟩], text)
    else if byteAt text pos = 10 then
      (formatLoop width wrap format fuel text (pos + 1) (pos + 1)).map fun (lines, after) =>
        (⟨begin, pos⟩ :: lines, after)
    else if wrap = .none ∨ pos - begin < width then formatLoop width wrap format fuel text begin (pos + 1)
    else match memrchr text 32 begin (pos - begin) with
      | some wrappos =>
        let text := if wrap = .hard ∧ format = true then text.set wrappos 10 else text
        (formatLoop width wrap format fuel text (wrappos + 1) (wrappos + 1)).map fun (lines, after) =>
          (⟨begin, wrappos⟩ :: lines, after)
      | none =>
        (formatLoop width wrap format fuel text pos pos).map fun (lines, after) => (⟨begin, pos⟩ :: lines, after)

def formatText (text : List UInt8) (width : Nat) (wrap : FormWrap) (format : Bool) :
    Option (List LineInfo × List UInt8) :=
  formatLoop width wrap format ((text.length + 1) * (text.length + 1)) text 0 0

def entryStart : List LineInfo → Int
  | [] => -1
  | line :: _ => line.start

def entryStop : List LineInfo → Int
  | [] => -1
  | line :: _ => line.stop

def getTextareaLineNumber : List LineInfo → Int → Option Nat
  | [], _ => none
  | line :: rest, cursorPosition =>
    let wrap := entryStart rest = line.stop
    if cursorPosition < line.start ∨ line.stop + (if wrap then 0 else 1) ≤ cursorPosition then
      (getTextareaLineNumber rest cursorPosition).map (· + 1)
    else some 0

structure FormState where
  value : List UInt8
  state : Int
deriving DecidableEq

structure FormControl where
  cols : Nat
  wrap : FormWrap

inductive FrameEventStatus where
  | ok
  | ignored
  | refresh
deriving DecidableEq

def intUpperBound (x limit : Int) : Int := if limit < x then limit else x

def startAt (lines : List LineInfo) (index : Nat) : Int := entryStart (lines.drop index)

def stopAt (lines : List LineInfo) (index : Nat) : Int := entryStop (lines.drop index)

abbrev DoOp := FormState → List LineInfo → Option Nat → Bool × FormState

def doOpHome : DoOp
  | fs, _, none => (false, fs)
  | fs, lines, some current => (false, { fs with state := startAt lines current })

def doOpUp : DoOp
  | fs, _, none => (false, fs)
  | fs, _, some 0 => (true, fs)
  | fs, lines, some (current + 1) =>
    let shifted := fs.state - (startAt lines (current + 1) - startAt lines current)
    (false, { fs with state := intUpperBound shifted (stopAt lines current) })

def doOpDown : DoOp
  | fs, _, none => (false, fs)
  | fs, lines, some current =>
    if startAt lines (current + 1) = -1 then (true, fs)
    else
      let shifted := fs.state + (startAt lines (current + 1) - startAt lines current)
      (false, { fs with state := intUpperBound shifted (stopAt lines (current + 1)) })

def textareaOp (fs : FormState) (fc : FormControl) (doOp : DoOp) : Option (FrameEventStatus × FormState) := do
  let (lines, _) ← formatText fs.value fc.cols fc.wrap false
  let (ignored, moved) := doOp fs lines (getTextareaLineNumber lines fs.state)
  some (if ignored then .ignored else if moved.state = fs.state then .ok else .refresh, moved)

def textareaOpUp (fs : FormState) (fc : FormControl) : Option (FrameEventStatus × FormState) :=
  textareaOp fs fc doOpUp

def textareaOpDown (fs : FormState) (fc : FormControl) : Option (FrameEventStatus × FormState) :=
  textareaOp fs fc doOpDown

/-! ### The layout -/

def Clean (text : List UInt8) (low high : Nat) : Prop := ∀ i, low ≤ i → i < high → byteAt text i ≠ 10

def Unspaced (text : List UInt8) (low high : Nat) : Prop := ∀ i, low ≤ i → i < high → byteAt text i ≠ 32

variable {text : List UInt8} {width : Nat} {wrap : FormWrap} {begin : Nat} {lines : List LineInfo}

/-- The lines from `begin` on, by how each of them ends: with the text, at a newline, at a space it was
wrapped at, or inside a word as long as the area is wide. -/
inductive Laid (text : List UInt8) (width : Nat) (wrap : FormWrap) : Nat → List LineInfo → Prop
  | last {begin : Nat} : begin ≤ text.length → Clean text begin text.length →
      (wrap ≠ .none → text.length ≤ begin + width) → Laid text width wrap begin [⟨begin, text.length⟩]
  | newline {begin stop : Nat} {rest : List LineInfo} : begin ≤ stop → stop < text.length → byteAt text stop = 10 →
      Clean text begin stop → (wrap ≠ .none → stop ≤ begin + width) → Laid text width wrap (stop + 1) rest →
      Laid text width wrap begin (⟨begin, stop⟩ :: rest)
  | space {begin stop : Nat} {rest : List LineInfo} : wrap ≠ .none → begin ≤ stop → stop < begin + width →
      stop < text.length → byteAt text stop = 32 → Clean text begin stop → Laid text width wrap (stop + 1) rest →
      Laid text width wrap begin (⟨begin, stop⟩ :: rest)
  | word {begin : Nat} {rest : List LineInfo} : wrap ≠ .none → begin + width < text.length →
      byteAt text (begin + width) ≠ 10 → Clean text begin (begin + width) → Unspaced text begin (begin + width) →
      Laid text width wrap (begin + width) rest → Laid text width wrap begin (⟨begin, begin + width⟩ :: rest)

theorem Clean.congr {other : List UInt8} {low high : Nat} (clean : Clean text low high)
    (same : ∀ i, low ≤ i → i < high → byteAt other i = byteAt text i) : Clean other low high := by
  intro i lower upper
  rw [same i lower upper]
  exact clean i lower upper

theorem Unspaced.congr {other : List UInt8} {low high : Nat} (unspaced : Unspaced text low high)
    (same : ∀ i, low ≤ i → i < high → byteAt other i = byteAt text i) : Unspaced other low high := by
  intro i lower upper
  rw [same i lower upper]
  exact unspaced i lower upper

theorem Laid.congr {other : List UInt8} (laid : Laid text width wrap begin lines)
    (size : other.length = text.length) (same : ∀ i, begin ≤ i → byteAt other i = byteAt text i) :
    Laid other width wrap begin lines := by
  induction laid with
  | last lower clean fits =>
    rw [← size] at lower clean fits ⊢
    exact .last lower (clean.congr fun i least _ => same i least) fits
  | newline lower upper byte clean fits _ ih =>
    refine .newline lower (by omega) (by rw [same _ lower, byte]) (clean.congr fun i least _ => same i least) fits ?_
    exact ih fun i least => same i (by omega)
  | space wraps lower short upper byte clean _ ih =>
    refine .space wraps lower short (by omega) (by rw [same _ lower, byte])
      (clean.congr fun i least _ => same i least) ?_
    exact ih fun i least => same i (by omega)
  | word wraps upper byte clean unspaced _ ih =>
    refine .word wraps (by omega) (by rwa [same _ (Nat.le_add_right _ _)]) (clean.congr fun i least _ => same i least)
      (unspaced.congr fun i least _ => same i least) ?_
    exact ih fun i least => same i (by omega)

theorem memrchr_spec (text : List UInt8) (c : UInt8) (begin : Nat) : ∀ count,
    (memrchr text c begin count = none ∧ ∀ i, begin ≤ i → i < begin + count → byteAt text i ≠ c) ∨
      ∃ place, memrchr text c begin count = some place ∧ begin ≤ place ∧ place < begin + count ∧ byteAt text place = c
  | 0 => Or.inl ⟨rfl, fun i lower upper => by omega⟩
  | n + 1 => by
    by_cases found : byteAt text (begin + n) = c
    · exact Or.inr ⟨begin + n, if_pos found, by omega, by omega, found⟩
    · rw [memrchr, if_neg found]
      rcases memrchr_spec text c begin n with ⟨none, absent⟩ | ⟨place, some, lower, upper, byte⟩
      · refine Or.inl ⟨none, fun i lower upper => ?_⟩
        by_cases last : i = begin + n
        · rw [last]
          exact found
        · exact absent i lower (by omega)
      · exact Or.inr ⟨place, some, lower, by omega, byte⟩

theorem byteAt_ne_zero (terminated : 0 ∉ text) {pos : Nat} (inside : pos < text.length) : byteAt text pos ≠ 0 := by
  rw [byteAt, List.getD_eq_getElem?_getD, List.getElem?_eq_getElem inside, Option.getD_some]
  intro zero
  exact terminated (zero ▸ List.getElem_mem inside)

theorem byteAt_end (text : List UInt8) : byteAt text text.length = 0 := by
  rw [byteAt, List.getD_eq_getElem?_getD, List.getElem?_eq_none (Nat.le_refl _), Option.getD_none]

theorem byteAt_set {place : Nat} (inside : place < text.length) (c : UInt8) (i : Nat) :
    byteAt (text.set place c) i = if i = place then c else byteAt text i := by
  simp only [byteAt, List.getD_eq_getElem?_getD, List.getElem?_set]
  by_cases same : place = i
  · subst same
    simp [inside]
  · rw [if_neg same, if_neg (Ne.symm same)]

theorem Laid.begin_le (laid : Laid text width wrap begin lines) : ∀ line ∈ lines, begin ≤ line.start := by
  induction laid with
  | last => simp
  | newline lower _ _ _ _ _ ih =>
    intro line member
    rcases List.mem_cons.mp member with rfl | member
    · exact Nat.le_refl _
    · have := ih line member
      omega
  | space _ lower _ _ _ _ _ ih =>
    intro line member
    rcases List.mem_cons.mp member with rfl | member
    · exact Nat.le_refl _
    · have := ih line member
      omega
  | word _ _ _ _ _ _ ih =>
    intro line member
    rcases List.mem_cons.mp member with rfl | member
    · exact Nat.le_refl _
    · have := ih line member
      omega

def Rewritten (text after : List UInt8) (lines : List LineInfo) : Prop :=
  ∀ i, byteAt after i = byteAt text i ∨
    byteAt after i = 10 ∧ byteAt text i = 32 ∧ ∀ line ∈ lines, i < line.start ∨ line.stop ≤ i

theorem Rewritten.cons {after : List UInt8} {begin stop next : Nat} (rewritten : Rewritten text after lines)
    (kept : ∀ i, i < next → byteAt after i = byteAt text i) (before : stop ≤ next) :
    Rewritten text after (⟨begin, stop⟩ :: lines) := by
  intro i
  rcases rewritten i with same | ⟨newline, space, outside⟩
  · exact Or.inl same
  · by_cases behind : stop ≤ i
    · refine Or.inr ⟨newline, space, ?_⟩
      intro line member
      rcases List.mem_cons.mp member with rfl | member
      · exact Or.inr behind
      · exact outside line member
    · exact Or.inl (kept i (by omega))

/-- What the loop does once it is at `begin` and `pos`: it ends, with the rest of the text laid out, and writes
between these lines only. -/
theorem formatLoop_laid (positive : 0 < width) (wrap : FormWrap) (format : Bool) : ∀ fuel text begin pos, 0 ∉ text → begin ≤ pos →
    pos ≤ text.length → Clean text begin pos → (wrap ≠ .none → pos ≤ begin + width) →
    (text.length - begin) * (text.length + 1) + (text.length - pos) < fuel →
    ∃ lines after, formatLoop width wrap format fuel text begin pos = some (lines, after) ∧
      Laid text width wrap begin lines ∧ after.length = text.length ∧ Rewritten text after lines ∧
      (∀ i, i < begin → byteAt after i = byteAt text i) ∧ (format = false → after = text) := by
  intro fuel
  induction fuel with
  | zero => intro text begin pos _ _ _ _ _ enough; omega
  | succ fuel ih =>
    intro text begin pos terminated lower upper clean fits enough
    rw [formatLoop]
    by_cases ended : byteAt text pos = 0
    · have done : pos = text.length := by
        by_contra inside
        exact byteAt_ne_zero terminated (by omega) ended
      subst done
      rw [if_pos ended]
      exact ⟨_, _, rfl, .last lower clean fits, rfl, fun _ => Or.inl rfl, fun _ _ => rfl, fun _ => rfl⟩
    have inside : pos < text.length := by
      by_contra beyond
      exact ended ((show pos = text.length by omega) ▸ byteAt_end text)
    -- a line that is closed leaves fuel for what begins at `next` behind it
    have fuelled : ∀ next, begin < next → next ≤ text.length →
        (text.length - next) * (text.length + 1) + (text.length - next) < fuel := by
      intro next later bounded
      have rows : (text.length - next + 1) * (text.length + 1) ≤ (text.length - begin) * (text.length + 1) :=
        Nat.mul_le_mul_right _ (by omega)
      rw [Nat.add_mul] at rows
      omega
    rw [if_neg ended]
    by_cases newline : byteAt text pos = 10
    · obtain ⟨lines, after, ran, laid, size, rewritten, kept, same⟩ := ih text (pos + 1) (pos + 1) terminated
        (Nat.le_refl _) inside (fun i least most => by omega) (fun _ => by omega) (fuelled _ (by omega) inside)
      rw [if_pos newline, ran]
      exact ⟨_, _, rfl, .newline lower inside newline clean fits laid, size, rewritten.cons kept (Nat.le_succ pos),
        fun i before => kept i (by omega), same⟩
    rw [if_neg newline]
    by_cases room : wrap = .none ∨ pos - begin < width
    · rw [if_pos room]
      refine ih text begin (pos + 1) terminated (by omega) inside ?_ ?_ (by omega)
      · intro i least most
        by_cases last : i = pos
        · rw [last]
          exact newline
        · exact clean i least (by omega)
      · intro wraps
        have := room.resolve_left wraps
        omega
    have wraps : wrap ≠ .none := fun unwrapped => room (Or.inl unwrapped)
    have full : pos = begin + width := by
      have := fits wraps
      omega
    rw [if_neg room]
    rcases memrchr_spec text 32 begin (pos - begin) with ⟨absent, unspaced⟩ | ⟨wrappos, found, least, most, space⟩
    · obtain ⟨lines, after, ran, laid, size, rewritten, kept, same⟩ := ih text pos pos terminated
        (Nat.le_refl _) upper (fun i least most => by omega) (fun _ => by omega) (fuelled _ (by omega) upper)
      rw [absent]
      simp only [ran]
      subst full
      exact ⟨_, _, rfl, .word wraps inside newline clean (fun i least most => unspaced i least (by omega)) laid, size,
        rewritten.cons kept (Nat.le_refl _), fun i before => kept i (by omega), same⟩
    · rw [found]
      have bounded : wrappos < text.length := by omega
      have short : Clean text begin wrappos := fun i low high => clean i low (by omega)
      by_cases hard : wrap = .hard ∧ format = true
      · simp only [if_pos hard]
        have unended : 0 ∉ text.set wrappos 10 := by
          intro member
          rcases List.mem_or_eq_of_mem_set member with member | zero
          · exact terminated member
          · exact absurd zero (by decide)
        have long : (text.set wrappos 10).length = text.length := List.length_set
        obtain ⟨lines, after, ran, laid, size, rewritten, kept, same⟩ := ih (text.set wrappos 10) (wrappos + 1)
          (wrappos + 1) unended (Nat.le_refl _) (by omega) (fun i least most => by omega) (fun _ => by omega)
          (by rw [long]; exact fuelled _ (by omega) bounded)
        simp only [byteAt_set bounded] at kept
        have restLaid : Laid text width wrap (wrappos + 1) lines := laid.congr long.symm fun i behind => by
          rw [byteAt_set bounded, if_neg (by omega)]
        simp only [ran]
        refine ⟨_, _, rfl, .space wraps least (by omega) bounded space short restLaid, by rw [size, long], ?_, ?_, ?_⟩
        · intro i
          by_cases wrapped : i = wrappos
          · have written := kept i (by omega)
            rw [if_pos wrapped] at written
            refine Or.inr ⟨written, by rw [wrapped, space], ?_⟩
            intro line member
            rcases List.mem_cons.mp member with rfl | member
            · exact Or.inr (by simp [wrapped])
            · have := restLaid.begin_le line member
              exact Or.inl (by omega)
          · have rest : byteAt (text.set wrappos 10) i = byteAt text i := by rw [byteAt_set bounded, if_neg wrapped]
            rcases rewritten i with equal | ⟨newline, was, outside⟩
            · exact Or.inl (equal.trans rest)
            · by_cases behind : wrappos ≤ i
              · refine Or.inr ⟨newline, rest ▸ was, ?_⟩
                intro line member
                rcases List.mem_cons.mp member with rfl | member
                · exact Or.inr behind
                · exact outside line member
              · have unchanged := kept i (by omega)
                rw [if_neg wrapped] at unchanged
                exact Or.inl unchanged
        · intro i before
          rw [kept i (by omega), if_neg (by omega)]
        · intro unformatted
          rw [hard.2] at unformatted
          exact absurd unformatted (by decide)
      · simp only [if_neg hard]
        obtain ⟨lines, after, ran, laid, size, rewritten, kept, same⟩ := ih text (wrappos + 1) (wrappos + 1) terminated
          (Nat.le_refl _) bounded (fun i least most => by omega) (fun _ => by omega)
          (fuelled _ (by omega) bounded)
        simp only [ran]
        exact ⟨_, _, rfl, .space wraps least (by omega) bounded space short laid, size,
          rewritten.cons kept (Nat.le_succ wrappos), fun i before => kept i (by omega), same⟩

/-- `next` begins where `line` ends, or behind the newline or the space that ends it. -/
def Follows (text : List UInt8) (wrap : FormWrap) (line next : LineInfo) : Prop :=
  next.start = line.stop ∨
    next.start = line.stop + 1 ∧ (byteAt text line.stop = 10 ∨ wrap ≠ .none ∧ byteAt text line.stop = 32)

def LineFits (text : List UInt8) (width : Nat) (wrap : FormWrap) (line : LineInfo) : Prop :=
  line.start ≤ line.stop ∧ line.stop ≤ text.length ∧ Clean text line.start line.stop ∧
    (wrap ≠ .none → line.stop ≤ line.start + width)

structure IsLayout (text : List UInt8) (width : Nat) (wrap : FormWrap) (lines : List LineInfo) : Prop where
  first : lines.head?.map (·.start) = some 0
  last : lines.getLast?.map (·.stop) = some text.length
  consecutive : lines.IsChain (Follows text wrap)
  fits : ∀ line ∈ lines, LineFits text width wrap line

def Broken (text : List UInt8) (width : Nat) (wrap : FormWrap) (line next : LineInfo) : Prop :=
  wrap ≠ .none ∧ next.start = line.stop ∧ line.stop = line.start + width ∧ line.stop < text.length ∧
    byteAt text line.stop ≠ 10 ∧ Clean text line.start line.stop ∧ Unspaced text line.start line.stop

def Separated (text : List UInt8) (width : Nat) (wrap : FormWrap) (line next : LineInfo) : Prop :=
  next.start = line.stop + 1 ∧ line.stop < text.length ∧
    (byteAt text line.stop = 10 ∨ wrap ≠ .none ∧ byteAt text line.stop = 32 ∧ line.stop < line.start + width)

theorem Laid.head (laid : Laid text width wrap begin lines) : ∃ line rest, lines = line :: rest ∧ line.start = begin := by
  cases laid with
  | last => exact ⟨_, _, rfl, rfl⟩
  | newline => exact ⟨_, _, rfl, rfl⟩
  | space => exact ⟨_, _, rfl, rfl⟩
  | word => exact ⟨_, _, rfl, rfl⟩

theorem Laid.chain (laid : Laid text width wrap begin lines) :
    lines.IsChain fun line next => Broken text width wrap line next ∨ Separated text width wrap line next := by
  induction laid with
  | last => exact List.isChain_singleton _
  | newline lower inside byte clean fits rest ih =>
    obtain ⟨next, later, rfl, starts⟩ := rest.head
    exact List.isChain_cons_cons.mpr ⟨Or.inr ⟨starts, inside, Or.inl byte⟩, ih⟩
  | space wraps lower short inside byte clean rest ih =>
    obtain ⟨next, later, rfl, starts⟩ := rest.head
    exact List.isChain_cons_cons.mpr ⟨Or.inr ⟨starts, inside, Or.inr ⟨wraps, byte, short⟩⟩, ih⟩
  | word wraps inside byte clean unspaced rest ih =>
    obtain ⟨next, later, rfl, starts⟩ := rest.head
    exact List.isChain_cons_cons.mpr ⟨Or.inl ⟨wraps, starts, rfl, inside, byte, clean, unspaced⟩, ih⟩

theorem Laid.fits (laid : Laid text width wrap begin lines) : ∀ line ∈ lines, LineFits text width wrap line := by
  induction laid with
  | last lower clean fits =>
    intro line member
    rw [List.mem_singleton.mp member]
    exact ⟨lower, Nat.le_refl _, clean, fits⟩
  | newline lower inside byte clean fits rest ih =>
    intro line member
    rcases List.mem_cons.mp member with rfl | member
    · exact ⟨lower, Nat.le_of_lt inside, clean, fits⟩
    · exact ih line member
  | space wraps lower short inside byte clean rest ih =>
    intro line member
    rcases List.mem_cons.mp member with rfl | member
    · exact ⟨lower, Nat.le_of_lt inside, clean, fun _ => Nat.le_of_lt short⟩
    · exact ih line member
  | word wraps inside byte clean unspaced rest ih =>
    intro line member
    rcases List.mem_cons.mp member with rfl | member
    · exact ⟨Nat.le_add_right _ _, Nat.le_of_lt inside, clean, fun _ => Nat.le_refl _⟩
    · exact ih line member

theorem Laid.ends (laid : Laid text width wrap begin lines) :
    lines.getLast?.map (·.stop) = some text.length := by
  induction laid with
  | last => rfl
  | newline _ _ _ _ _ rest ih =>
    obtain ⟨next, later, rfl, _⟩ := rest.head
    rwa [List.getLast?_cons_cons]
  | space _ _ _ _ _ _ rest ih =>
    obtain ⟨next, later, rfl, _⟩ := rest.head
    rwa [List.getLast?_cons_cons]
  | word _ _ _ _ _ rest ih =>
    obtain ⟨next, later, rfl, _⟩ := rest.head
    rwa [List.getLast?_cons_cons]

theorem Laid.isLayout (laid : Laid text width wrap 0 lines) : IsLayout text width wrap lines where
  first := by
    obtain ⟨line, rest, rfl, starts⟩ := laid.head
    rw [List.head?_cons, Option.map_some, starts]
  last := laid.ends
  consecutive := by
    refine laid.chain.imp fun line next ends => ?_
    rcases ends with ⟨_, starts, _⟩ | ⟨starts, _, byte⟩
    · exact Or.inl starts
    · exact Or.inr ⟨starts, byte.imp_right fun wrapped => ⟨wrapped.1, wrapped.2.1⟩⟩
  fits := laid.fits

theorem IsLayout.rewritten {after : List UInt8} (layout : IsLayout text width wrap lines)
    (size : after.length = text.length) (rewritten : Rewritten text after lines) :
    IsLayout after width wrap lines where
  first := layout.first
  last := by rw [size]; exact layout.last
  consecutive := by
    refine layout.consecutive.imp fun line next follows => follows.imp_right fun ⟨starts, byte⟩ => ⟨starts, ?_⟩
    rcases rewritten line.stop with same | ⟨newline, _⟩
    · rwa [same]
    · exact Or.inl newline
  fits := by
    intro line member
    obtain ⟨lower, upper, clean, short⟩ := layout.fits line member
    refine ⟨lower, by omega, ?_, short⟩
    refine clean.congr fun i least most => ?_
    rcases rewritten i with same | ⟨_, _, outside⟩
    · exact same
    · rcases outside line member with before | behind
      · omega
      · omega

theorem formatText_laid (terminated : 0 ∉ text) (positive : 0 < width) (wrap : FormWrap) (format : Bool) :
    ∃ lines after, formatText text width wrap format = some (lines, after) ∧ Laid text width wrap 0 lines ∧
      after.length = text.length ∧ Rewritten text after lines ∧ (format = false → after = text) := by
  have fuelled : (text.length - 0) * (text.length + 1) + (text.length - 0) < (text.length + 1) * (text.length + 1) := by
    rw [Nat.sub_zero, Nat.add_mul text.length 1 (text.length + 1)]
    omega
  obtain ⟨lines, after, ran, laid, size, rewritten, -, same⟩ := formatLoop_laid positive wrap format
    _ text 0 0 terminated (Nat.le_refl 0) (Nat.zero_le _) (fun i _ most => by omega) (fun _ => by omega) fuelled
  exact ⟨lines, after, ran, laid, size, rewritten, same⟩

/-! ### The line of a cursor -/

/-- The line at `index` has the cursor position: up to its end, and at its end unless the next line begins there. -/
def InLine (lines : List LineInfo) (index : Nat) (cursor : Int) : Prop :=
  ∃ line, lines[index]? = some line ∧ line.start ≤ cursor ∧
    cursor < line.stop + if startAt lines (index + 1) = line.stop then 0 else 1

theorem inLine_succ {line : LineInfo} {rest : List LineInfo} {index : Nat} {cursor : Int} :
    InLine (line :: rest) (index + 1) cursor ↔ InLine rest index cursor := Iff.rfl

theorem Laid.index_le (laid : Laid text width wrap begin lines) {index : Nat} {cursor : Int}
    (here : InLine lines index cursor) : (begin : Int) ≤ cursor := by
  obtain ⟨line, found, lower, _⟩ := here
  have := laid.begin_le line (List.mem_of_getElem? found)
  omega

theorem Laid.entryStart_eq (laid : Laid text width wrap begin lines) : entryStart lines = begin := by
  obtain ⟨line, rest, rfl, starts⟩ := laid.head
  rw [entryStart, starts]

/-- The rest of the lines begins where the first has no more cursor positions. -/
theorem Laid.rest_begins {line : LineInfo} {rest : List LineInfo} (laid : Laid text width wrap begin (line :: rest))
    (nonempty : rest ≠ []) : ∃ next : Nat, Laid text width wrap next rest ∧
      (line.stop : Int) + (if entryStart rest = line.stop then 0 else 1) = next := by
  cases laid with
  | last => exact absurd rfl nonempty
  | @newline _ stop _ _ _ _ _ _ later =>
    refine ⟨_, later, ?_⟩
    rw [later.entryStart_eq, if_neg (show ((stop + 1 : Nat) : Int) ≠ stop by omega), Int.natCast_succ]
  | @space _ stop _ _ _ _ _ _ _ later =>
    refine ⟨_, later, ?_⟩
    rw [later.entryStart_eq, if_neg (show ((stop + 1 : Nat) : Int) ≠ stop by omega), Int.natCast_succ]
  | word _ _ _ _ _ later =>
    refine ⟨_, later, ?_⟩
    rw [later.entryStart_eq, if_pos rfl, Int.add_zero]

/-- The number of a line is the place of the line that has the cursor position. -/
theorem getTextareaLineNumber_iff (laid : Laid text width wrap begin lines) (cursor : Int) : ∀ index,
    getTextareaLineNumber lines cursor = some index ↔ InLine lines index cursor := by
  induction lines generalizing begin with
  | nil =>
    intro index
    simp [getTextareaLineNumber, InLine]
  | cons line rest ih =>
    have starts : line.start = begin := by
      obtain ⟨_, _, equal, starts⟩ := laid.head
      rw [(List.cons.inj equal).1, starts]
    intro index
    rw [getTextareaLineNumber]
    by_cases elsewhere : cursor < line.start ∨ line.stop + (if entryStart rest = line.stop then 0 else 1) ≤ cursor
    · rw [if_pos elsewhere]
      cases index with
      | zero =>
        constructor
        · intro found
          obtain ⟨_, _, impossible⟩ := Option.map_eq_some_iff.mp found
          exact absurd impossible (Nat.succ_ne_zero _)
        · rintro ⟨_, found, lower, upper⟩
          rw [List.getElem?_cons_zero, Option.some.injEq] at found
          subst found
          rcases elsewhere with before | behind
          · omega
          · exact absurd upper (Int.not_lt.mpr behind)
      | succ index =>
        rw [inLine_succ]
        by_cases nonempty : rest = []
        · subst nonempty
          simp [getTextareaLineNumber, InLine]
        · obtain ⟨next, later, _⟩ := laid.rest_begins nonempty
          rw [← ih later index, Option.map_eq_some_iff]
          simp
    · rw [if_neg elsewhere]
      obtain ⟨lower, upper⟩ := not_or.mp elsewhere
      cases index with
      | zero => exact ⟨fun _ => ⟨line, rfl, Int.not_lt.mp lower, Int.not_le.mp upper⟩, fun _ => rfl⟩
      | succ index =>
        constructor
        · intro impossible
          exact absurd (Option.some.inj impossible) (Nat.succ_ne_zero index).symm
        · rw [inLine_succ]
          intro inRest
          have nonempty : rest ≠ [] := by
            rintro rfl
            obtain ⟨_, found, _⟩ := inRest
            simp at found
          obtain ⟨next, later, begins⟩ := laid.rest_begins nonempty
          have := later.index_le inRest
          omega

theorem getTextareaLineNumber_exists (laid : Laid text width wrap begin lines) {cursor : Int}
    (lower : (begin : Int) ≤ cursor) (upper : cursor ≤ text.length) :
    ∃ index, getTextareaLineNumber lines cursor = some index := by
  induction lines generalizing begin with
  | nil =>
    obtain ⟨_, _, impossible, _⟩ := laid.head
    exact absurd impossible (List.cons_ne_nil _ _).symm
  | cons line rest ih =>
    have starts : line.start = begin := by
      obtain ⟨_, _, equal, starts⟩ := laid.head
      rw [(List.cons.inj equal).1, starts]
    rw [getTextareaLineNumber]
    by_cases elsewhere : cursor < line.start ∨ line.stop + (if entryStart rest = line.stop then 0 else 1) ≤ cursor
    · rw [if_pos elsewhere]
      have behind := elsewhere.resolve_left (by omega)
      by_cases nonempty : rest = []
      · subst nonempty
        have stops : line.stop = text.length := Option.some.inj laid.ends
        rw [if_neg (by simp only [entryStart]; omega)] at behind
        omega
      · obtain ⟨next, later, begins⟩ := laid.rest_begins nonempty
        obtain ⟨index, found⟩ := ih later (by omega)
        rw [found]
        exact ⟨index + 1, rfl⟩
    · rw [if_neg elsewhere]
      exact ⟨0, rfl⟩

/-! ### Moving between lines -/

theorem startAt_eq {index : Nat} {line : LineInfo} (found : lines[index]? = some line) :
    startAt lines index = line.start ∧ stopAt lines index = line.stop := by
  obtain ⟨inside, here⟩ := List.getElem?_eq_some_iff.mp found
  rw [startAt, stopAt, List.drop_eq_getElem_cons inside, here]
  exact ⟨rfl, rfl⟩

theorem startAt_none {index : Nat} (beyond : lines.length ≤ index) : startAt lines index = -1 := by
  rw [startAt, List.drop_eq_nil_of_le beyond, entryStart]

theorem Laid.pair (laid : Laid text width wrap 0 lines) {index : Nat} {line next : LineInfo}
    (here : lines[index]? = some line) (there : lines[index + 1]? = some next) :
    Broken text width wrap line next ∨ Separated text width wrap line next := by
  obtain ⟨_, rfl⟩ := List.getElem?_eq_some_iff.mp here
  obtain ⟨inside, rfl⟩ := List.getElem?_eq_some_iff.mp there
  exact List.isChain_iff_getElem.mp laid.chain index inside

theorem Laid.last_stop (laid : Laid text width wrap 0 lines) {index : Nat} {line : LineInfo}
    (here : lines[index]? = some line) (last : lines.length ≤ index + 1) : line.stop = text.length := by
  obtain ⟨inside, rfl⟩ := List.getElem?_eq_some_iff.mp here
  have ends := laid.ends
  have final : lines.length - 1 = index := by omega
  rw [List.getLast?_eq_getElem?, final, here, Option.map_some, Option.some.injEq] at ends
  exact ends

/-- The cursor at `column` of the line, or at its last position where it has no such column. -/
def MovesTo (lines : List LineInfo) (index column : Nat) (cursor : Int) : Prop :=
  getTextareaLineNumber lines cursor = some index ∧
    (cursor = startAt lines index + column ∨
      getTextareaLineNumber lines (startAt lines index + column) ≠ some index ∧
        ∀ other, getTextareaLineNumber lines other = some index → other ≤ cursor)

/-- Bounding the cursor by the end of a line is right, but for a line that goes on where it ends. -/
theorem movesTo_iff (laid : Laid text width wrap 0 lines) {index : Nat} {line : LineInfo}
    (here : lines[index]? = some line) (column : Nat) :
    MovesTo lines index column (intUpperBound (line.start + column) line.stop) ↔
      (startAt lines (index + 1) = line.stop → line.start + column < line.stop) := by
  have lower := (laid.fits line (List.mem_of_getElem? here)).1
  have within : ∀ cursor : Int, getTextareaLineNumber lines cursor = some index ↔
      line.start ≤ cursor ∧ cursor < line.stop + if startAt lines (index + 1) = line.stop then 0 else 1 := by
    intro cursor
    rw [getTextareaLineNumber_iff laid, InLine, here]
    simp
  simp only [MovesTo, ne_eq, within, (startAt_eq here).1, intUpperBound]
  by_cases broken : startAt lines (index + 1) = line.stop
  · simp only [broken, if_true, true_implies, Int.add_zero]
    by_cases long : (line.stop : Int) < line.start + column
    · rw [if_pos long]
      omega
    · rw [if_neg long]
      exact ⟨fun moved => by omega, fun short => ⟨by omega, Or.inl rfl⟩⟩
  · simp only [if_neg broken]
    refine ⟨fun _ impossible => absurd impossible broken, fun _ => ?_⟩
    by_cases long : (line.stop : Int) < line.start + column
    · rw [if_pos long]
      exact ⟨by omega, Or.inr ⟨by omega, fun other bounds => by omega⟩⟩
    · rw [if_neg long]
      exact ⟨by omega, Or.inl rfl⟩

variable {cursor column index : Nat}

theorem Laid.cursor_line (laid : Laid text width wrap 0 lines)
    (found : getTextareaLineNumber lines cursor = some index) (placed : (cursor : Int) = startAt lines index + column) :
    ∃ line, lines[index]? = some line ∧ cursor = line.start + column ∧ cursor ≤ line.stop ∧
      (startAt lines (index + 1) = line.stop → cursor < line.stop) ∧ LineFits text width wrap line := by
  obtain ⟨line, here, lower, upper⟩ := (getTextareaLineNumber_iff laid _ _).mp found
  rw [(startAt_eq here).1] at placed
  refine ⟨line, here, by omega, ?_, ?_, laid.fits line (List.mem_of_getElem? here)⟩
  · split at upper <;> omega
  · intro broken
    rw [if_pos broken] at upper
    omega

/-- The line above was broken inside a word, and the column is as far as the area is wide. -/
def UpMisses (text : List UInt8) (width : Nat) (wrap : FormWrap) (cursor column : Nat) : Prop :=
  wrap ≠ .none ∧ column = width ∧ byteAt text (cursor - width - 1) ≠ 10 ∧ byteAt text (cursor - width - 1) ≠ 32

/-- The line below is broken inside a word, and the column is as far as the area is wide. -/
def DownMisses (text : List UInt8) (width : Nat) (wrap : FormWrap) (cursor column : Nat) : Prop :=
  wrap ≠ .none ∧ column = width ∧ cursor + 1 + width < text.length ∧ byteAt text (cursor + 1 + width) ≠ 10 ∧
    Clean text (cursor + 1) (cursor + 1 + width) ∧ Unspaced text (cursor + 1) (cursor + 1 + width)

theorem up_iff (positive : 0 < width) (laid : Laid text width wrap 0 lines)
    (found : getTextareaLineNumber lines cursor = some (index + 1))
    (placed : (cursor : Int) = startAt lines (index + 1) + column) :
    MovesTo lines index column (intUpperBound (cursor - (startAt lines (index + 1) - startAt lines index))
      (stopAt lines index)) ↔ ¬ UpMisses text width wrap cursor column := by
  obtain ⟨line, here, column_eq, stops, -, -, -, -, short⟩ := laid.cursor_line found placed
  obtain ⟨inside, -⟩ := List.getElem?_eq_some_iff.mp here
  have before : lines[index]? = some lines[index] := List.getElem?_eq_getElem (by omega)
  generalize lines[index] = target at before
  have shifted : (cursor : Int) - (startAt lines (index + 1) - startAt lines index) = target.start + column := by
    rw [(startAt_eq here).1, (startAt_eq before).1]
    omega
  rw [shifted, (startAt_eq before).2, movesTo_iff laid before, (startAt_eq here).1]
  rcases laid.pair before here with ⟨wraps, goesOn, long, _, _, clean, unspaced⟩ | ⟨starts, _, byte⟩
  · constructor
    · rintro room ⟨_, full, _⟩
      have := room (by omega)
      omega
    · intro hits _
      have := short wraps
      by_contra beyond
      have place : cursor - width - 1 = target.stop - 1 := by omega
      refine hits ⟨wraps, by omega, ?_, ?_⟩
      · rw [place]
        exact clean _ (by omega) (by omega)
      · rw [place]
        exact unspaced _ (by omega) (by omega)
  · constructor
    · rintro _ ⟨_, full, line, space⟩
      rw [show cursor - width - 1 = target.stop by omega] at line space
      rcases byte with newline | ⟨_, wrapped, _⟩
      · exact line newline
      · exact space wrapped
    · intro _ goesOn
      omega

theorem down_iff (laid : Laid text width wrap 0 lines) (later : index + 1 < lines.length)
    (found : getTextareaLineNumber lines cursor = some index)
    (placed : (cursor : Int) = startAt lines index + column) :
    MovesTo lines (index + 1) column (intUpperBound (cursor + (startAt lines (index + 1) - startAt lines index))
      (stopAt lines (index + 1))) ↔ ¬ DownMisses text width wrap cursor column := by
  obtain ⟨line, here, column_eq, stops, inner, -, -, -, short⟩ := laid.cursor_line found placed
  have below : lines[index + 1]? = some lines[index + 1] := List.getElem?_eq_getElem later
  generalize lines[index + 1] = target at below
  have shifted : (cursor : Int) + (startAt lines (index + 1) - startAt lines index) = target.start + column := by
    rw [(startAt_eq here).1, (startAt_eq below).1]
    omega
  rw [shifted, (startAt_eq below).2, movesTo_iff laid below]
  rw [(startAt_eq below).1] at inner
  -- at the last column of a full line, the next one starts behind the byte at the cursor
  have behind : wrap ≠ .none → column = width → target.start = cursor + 1 := by
    intro wraps full
    have := short wraps
    rcases laid.pair here below with ⟨_, goesOn, _⟩ | ⟨starts, _⟩
    · have := inner (by omega)
      omega
    · omega
  have targetShort := (laid.fits target (List.mem_of_getElem? below)).2.2.2
  by_cases last : lines.length ≤ index + 2
  · rw [startAt_none last]
    refine ⟨fun _ => ?_, fun _ impossible => by omega⟩
    rintro ⟨wraps, full, long, _⟩
    have := behind wraps full
    have := targetShort wraps
    have := laid.last_stop below last
    omega
  · have next : lines[index + 1 + 1]? = some lines[index + 1 + 1] := List.getElem?_eq_getElem (by omega)
    generalize lines[index + 1 + 1] = further at next
    rw [(startAt_eq next).1]
    rcases laid.pair below next with ⟨wraps, goesOn, long, inside, newline, clean, unspaced⟩ | ⟨starts, _, byte⟩
    · constructor
      · rintro room ⟨_, full, _⟩
        have := room (by omega)
        omega
      · intro hits _
        have := short wraps
        by_contra beyond
        have full : column = width := by omega
        have begins := behind wraps full
        have ends : target.stop = cursor + 1 + width := by omega
        rw [begins] at clean unspaced
        rw [ends] at inside newline clean unspaced
        exact hits ⟨wraps, full, inside, newline, clean, unspaced⟩
    · refine ⟨fun _ => ?_, fun _ goesOn => by omega⟩
      rintro ⟨wraps, full, long, line, clean, unspaced⟩
      have begins := behind wraps full
      have lower := (laid.fits target (List.mem_of_getElem? below)).1
      have upper := targetShort wraps
      rcases byte with newline | ⟨_, space, within⟩
      · by_cases inWord : target.stop < cursor + 1 + width
        · exact clean _ (by omega) inWord newline
        · rw [show target.stop = cursor + 1 + width by omega] at newline
          exact line newline
      · exact unspaced _ (by omega) (by omega) space

/-- Every text is laid out in consecutive lines that fit, each cursor is in one line, and the cursor moves up and
down as it should exactly when it does not come to the end of a line broken inside a word. -/
theorem textarea_iff {text : List UInt8} {width : Nat} (terminated : 0 ∉ text) (positive : 0 < width)
    (wrap : FormWrap) :
    (∀ format, ∃ lines after, formatText text width wrap format = some (lines, after) ∧
      IsLayout text width wrap lines ∧ IsLayout after width wrap lines) ∧
    ∃ lines, formatText text width wrap false = some (lines, text) ∧
      (∀ cursor : Nat, cursor ≤ text.length → ∃ index, getTextareaLineNumber lines cursor = some index ∧
        ∀ other, InLine lines other cursor ↔ other = index) ∧
      ∀ cursor column index : Nat, cursor ≤ text.length → getTextareaLineNumber lines cursor = some index →
        (cursor : Int) = startAt lines index + column →
        (∀ above, index = above + 1 →
          ((∃ status fs, textareaOpUp ⟨text, cursor⟩ ⟨width, wrap⟩ = some (status, fs) ∧ fs.value = text ∧
              MovesTo lines above column fs.state) ↔ ¬ UpMisses text width wrap cursor column)) ∧
        (index + 1 < lines.length →
          ((∃ status fs, textareaOpDown ⟨text, cursor⟩ ⟨width, wrap⟩ = some (status, fs) ∧ fs.value = text ∧
              MovesTo lines (index + 1) column fs.state) ↔ ¬ DownMisses text width wrap cursor column)) := by
  refine ⟨?_, ?_⟩
  · intro format
    obtain ⟨lines, after, ran, laid, size, rewritten, -⟩ := formatText_laid terminated positive wrap format
    exact ⟨lines, after, ran, laid.isLayout, laid.isLayout.rewritten size rewritten⟩
  · obtain ⟨lines, after, ran, laid, -, -, same⟩ := formatText_laid terminated positive wrap false
    have unchanged := same rfl
    subst after
    refine ⟨lines, ran, ?_, ?_⟩
    · intro cursor bounded
      obtain ⟨index, found⟩ := getTextareaLineNumber_exists laid (Int.ofNat_le.mpr (Nat.zero_le cursor)) (by omega)
      refine ⟨index, found, fun other => ?_⟩
      rw [← getTextareaLineNumber_iff laid, found, Option.some.injEq]
      exact eq_comm
    · intro cursor column index _ found placed
      refine ⟨?_, ?_⟩
      · rintro above rfl
        rw [← up_iff positive laid found placed]
        simp [textareaOpUp, textareaOp, ran, found, doOpUp]
      · intro later
        rw [← down_iff laid later found placed]
        have next : startAt lines (index + 1) ≠ -1 := by
          rw [(startAt_eq (List.getElem?_eq_getElem later)).1]
          omega
        simp [textareaOpDown, textareaOp, ran, found, doOpDown, next]

/-- In "ab" and "cd", up and down in the second column -/
theorem textarea_iff_twoLines :
    let text : List UInt8 := [97, 98, 10, 99, 100]
    let lines : List LineInfo := [⟨0, 2⟩, ⟨3, 5⟩]
    (∃ status fs, textareaOpDown ⟨text, 1⟩ ⟨4, .soft⟩ = some (status, fs) ∧ fs.value = text ∧
        MovesTo lines 1 1 fs.state) ∧
      ∃ status fs, textareaOpUp ⟨text, 4⟩ ⟨4, .soft⟩ = some (status, fs) ∧ fs.value = text ∧
        MovesTo lines 0 1 fs.state := by
  intro text lines
  obtain ⟨found, ran, -, moves⟩ := (@textarea_iff text 4 (by decide) (by decide) .soft).2
  have same : formatText text 4 .soft false = some (lines, text) := by decide +kernel
  obtain rfl : found = lines := (Prod.mk.inj (Option.some.inj (ran.symm.trans same))).1
  have down := (moves 1 1 0 (by decide) rfl rfl).2 (by decide)
  have up := (moves 4 1 1 (by decide) rfl rfl).1 0 rfl
  exact ⟨down.mpr fun misses => absurd misses.2.1 (by decide), up.mpr fun misses => absurd misses.2.1 (by decide)⟩

/-- Up from the end of "aabb" in two columns stays in its line; down from the end of "aa" passes a line. -/
theorem textareaOp_misses :
    (formatText [97, 97, 98, 98] 2 .soft false = some ([⟨0, 2⟩, ⟨2, 4⟩], [97, 97, 98, 98]) ∧
      getTextareaLineNumber [⟨0, 2⟩, ⟨2, 4⟩] 4 = some 1 ∧
      textareaOpUp ⟨[97, 97, 98, 98], 4⟩ ⟨2, .soft⟩ = some (.refresh, ⟨[97, 97, 98, 98], 2⟩) ∧
      ¬ MovesTo [⟨0, 2⟩, ⟨2, 4⟩] 0 2 2) ∧
    formatText [97, 97, 10, 98, 98, 98] 2 .soft false =
        some ([⟨0, 2⟩, ⟨3, 5⟩, ⟨5, 6⟩], [97, 97, 10, 98, 98, 98]) ∧
      getTextareaLineNumber [⟨0, 2⟩, ⟨3, 5⟩, ⟨5, 6⟩] 2 = some 0 ∧
      textareaOpDown ⟨[97, 97, 10, 98, 98, 98], 2⟩ ⟨2, .soft⟩ = some (.refresh, ⟨[97, 97, 10, 98, 98, 98], 5⟩) ∧
      ¬ MovesTo [⟨0, 2⟩, ⟨3, 5⟩, ⟨5, 6⟩] 1 2 5 := by
  refine ⟨⟨by decide +kernel, rfl, by decide +kernel, ?_⟩, by decide +kernel, rfl, by decide +kernel, ?_⟩
  · intro moved
    exact absurd moved.1 (by decide)
  · intro moved
    exact absurd moved.1 (by decide)

end KcnTools.Viewer
