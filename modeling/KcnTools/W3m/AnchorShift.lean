import KcnTools.W3m.AnchorLookup
import Mathlib

/-!
Shifting the anchors of a line, and the plain definition of it. The markers are the part that goes
wrong: `hseq` is used as an index as it is, and every anchor that moves sets the marker.
-/

namespace KcnTools.Anchors

def EntirelyBefore (a : Anchor) (bp : BufferPoint) : Prop := bpcmp a.stop bp ≤ 0

instance (a : Anchor) (bp : BufferPoint) : Decidable (EntirelyBefore a bp) := inferInstanceAs (Decidable (_ ≤ _))

def Moved (line pos : Int) (a : Anchor) : Prop := a.start.line = line ∧ pos < a.start.pos

instance (line pos : Int) (a : Anchor) : Decidable (Moved line pos a) := inferInstanceAs (Decidable (_ ∧ _))

/-! The plain definition. -/

def newStart (line pos shift : Int) (a : Anchor) : BufferPoint :=
  if Moved line pos a then a.start.shift shift else a.start

def newStop (line pos shift : Int) (a : Anchor) : BufferPoint :=
  if a.stop.line = line ∧ ¬ EntirelyBefore a ⟨line, pos⟩ then a.stop.shift shift else a.stop

def linearShift (line pos shift : Int) (a : Anchor) : Anchor :=
  { a with start := newStart line pos shift a, stop := newStop line pos shift a }

def firstAnchor (anchors : List Anchor) (hseq : Int) : Option Anchor := anchors.find? fun a => decide (a.hseq = hseq)

def linearMark (anchors : List Anchor) (line pos shift : Int) (hseq : Nat) (mark : BufferPoint) : BufferPoint :=
  match firstAnchor anchors hseq with
  | some first => if Moved line pos first then { mark with pos := first.start.pos + shift } else mark
  | none => mark

def linearMarks (anchors : List Anchor) (marks : List BufferPoint) (line pos shift : Int) : List BufferPoint :=
  marks.mapIdx (linearMark anchors line pos shift)

/-- Anchors in the order of their positions, each in one line, and the markers of their numbers -/
structure ShiftedLine where
  anchors : List Anchor
  marks : List BufferPoint
  line : Int
  pos : Int
  shift : Int
  ordered : anchors.Pairwise fun a b => bpcmp a.stop b.start ≤ 0
  single : ∀ a ∈ anchors, a.start.line = a.stop.line ∧ a.start.pos ≤ a.stop.pos
  /-- `nanchor` is an `int`. -/
  countable : anchors.length < 2 ^ 31
  marked : ∀ hseq : Nat, ∀ mark, marks[hseq]? = some mark → ∀ first, firstAnchor anchors hseq = some first →
    mark = first.start
  /-- The shift keeps the positions in order. -/
  keeps : anchors.Pairwise fun a b => bpcmp (newStart line pos shift a) (newStart line pos shift b) ≤ 0

section Search

variable {anchors : List Anchor} {line pos : Int}

/-- An anchor in front of one that does not start behind the position ends before it. -/
theorem entirelyBefore_earlier (ordered : anchors.Pairwise fun a b => bpcmp a.stop b.start ≤ 0) {i j : Nat}
    {a c : Anchor} (before : i < j) (first : anchors[i]? = some a) (second : anchors[j]? = some c)
    (starts : bpcmp c.start ⟨line, pos⟩ ≤ 0) : EntirelyBefore a ⟨line, pos⟩ :=
  bpcmp_trans (ordered_getElem? ordered before first second) starts

theorem not_entirelyBefore_starts {a : Anchor} (single : bpcmp a.start a.stop ≤ 0)
    (starts : bpcmp ⟨line, pos⟩ a.start < 0) : ¬ EntirelyBefore a ⟨line, pos⟩ := by
  intro ends
  rw [EntirelyBefore, bpcmp_nonpos] at ends
  rw [bpcmp_nonpos] at single
  rw [bpcmp_neg] at starts
  omega

/-- What comes behind an anchor that does not end before the position starts behind it. -/
theorem starts_later (ordered : anchors.Pairwise fun a b => bpcmp a.stop b.start ≤ 0) {i j : Nat}
    {a c : Anchor} (before : i < j) (first : anchors[i]? = some a) (second : anchors[j]? = some c)
    (ends : ¬ EntirelyBefore a ⟨line, pos⟩) : bpcmp ⟨line, pos⟩ c.start < 0 := by
  have between := ordered_getElem? ordered before first second
  rw [EntirelyBefore, bpcmp_nonpos] at ends
  rw [bpcmp_nonpos] at between
  rw [bpcmp_neg]
  omega

theorem shiftSearch_place (ordered : anchors.Pairwise fun a b => bpcmp a.stop b.start ≤ 0)
    (single : ∀ a ∈ anchors, bpcmp a.start a.stop ≤ 0) (countable : anchors.length < 2 ^ 31) {rounds b e s : Nat}
    (searching : Searching anchors ⟨line, pos⟩ b e) (enough : e + 2 ≤ rounds + b) (positive : 0 < rounds)
    (small : b ≤ e + 1) (probe : (b ≤ e → b ≤ s ∧ s ≤ e) ∧ (e < b → s = b)) :
    ∃ place, shiftSearch anchors line pos rounds b e s = some place ∧
      (∀ i a, i < place → anchors[i]? = some a → EntirelyBefore a ⟨line, pos⟩) ∧
      ∀ i a, place ≤ i → anchors[i]? = some a → ¬ EntirelyBefore a ⟨line, pos⟩ := by
  induction rounds generalizing b e s with
  | zero => exact absurd positive (Nat.lt_irrefl 0)
  | succ rounds ih =>
      rw [shiftSearch]
      by_cases empty : e < b
      · rw [if_pos empty, probe.2 empty]
        refine ⟨b, rfl, searching.front, fun i a after here => ?_⟩
        exact not_entirelyBefore_starts (single a (List.mem_of_getElem? here))
          (searching.back i a (Nat.lt_of_lt_of_le empty after) here)
      · obtain ⟨low, high⟩ := probe.1 (Nat.not_lt.mp empty)
        have last := searching.last
        obtain ⟨a, here⟩ : ∃ a, anchors[s]? = some a := ⟨_, List.getElem?_eq_getElem (by omega)⟩
        have aSingle := single a (List.mem_of_getElem? here)
        rw [if_neg empty, here]
        dsimp only
        by_cases found : onAnchor a line pos = 0
        · rw [if_pos found]
          obtain ⟨starts, ends⟩ := (onAnchor_eq_zero a line pos).mp found
          have reaches : ¬ EntirelyBefore a ⟨line, pos⟩ := by
            rw [EntirelyBefore, bpcmp_nonpos]
            rw [bpcmp_neg] at ends
            omega
          refine ⟨s, rfl, fun i c before there => entirelyBefore_earlier ordered before there here starts, ?_⟩
          intro i c after there
          rcases Nat.lt_or_eq_of_le after with later | rfl
          · exact not_entirelyBefore_starts (single c (List.mem_of_getElem? there))
              (starts_later ordered later here there reaches)
          · rw [here, Option.some.injEq] at there
            exact there ▸ reaches
        · rw [if_neg found]
          by_cases behind : 0 < onAnchor a line pos
          · have ends := onAnchor_pos behind
            rw [if_pos behind, show (s : Int) + 1 = (s + 1 : Nat) by omega, sizeT_nat (by omega)]
            refine ih ⟨last, fun i c before there => ?_, searching.back⟩ (by omega) (by omega) (by omega)
              ⟨fun more => by omega, fun none => by omega⟩
            rcases Nat.lt_or_eq_of_le (Nat.le_of_lt_succ before) with earlier | rfl
            · exact entirelyBefore_earlier ordered earlier there here (bpcmp_trans aSingle ends)
            · rw [here, Option.some.injEq] at there
              exact there ▸ ends
          · have starts := onAnchor_neg (by omega : onAnchor a line pos < 0)
            have backwards : ∀ i c, s ≤ i → anchors[i]? = some c → bpcmp ⟨line, pos⟩ c.start < 0 := by
              intro i c after there
              rcases Nat.lt_or_eq_of_le after with later | rfl
              · exact starts_later ordered later here there (not_entirelyBefore_starts aSingle starts)
              · rw [here, Option.some.injEq] at there
                exact there ▸ starts
            rw [if_neg behind]
            by_cases first : s = 0
            · rw [if_pos first]
              refine ⟨s, rfl, fun i c before => absurd before (by omega), fun i c after there => ?_⟩
              exact not_entirelyBefore_starts (single c (List.mem_of_getElem? there)) (backwards i c after there)
            · rw [if_neg first, show (s : Int) - 1 = (s - 1 : Nat) by omega, sizeT_nat (by omega)]
              refine ih ⟨by omega, searching.front, fun i c after there => backwards i c (by omega) there⟩ (by omega)
                (by omega) (by omega) ⟨fun more => by omega, fun none => by omega⟩

end Search

/-! The anchors behind the place, and the markers they set. -/

section Rest

variable {line pos shift : Int}

def InRange (marks : List BufferPoint) (hseq : Int) : Prop := 0 ≤ hseq ∧ hseq < marks.length

theorem markAt_inRange {marks : List BufferPoint} {hseq : Int} (inside : InRange marks hseq) :
    ∃ mark, markAt marks hseq = some mark ∧ marks[hseq.toNat]? = some mark := by
  obtain ⟨positive, small⟩ := inside
  have here : marks[hseq.toNat]? = some marks[hseq.toNat] := List.getElem?_eq_getElem (by omega)
  exact ⟨_, by rw [markAt, if_pos positive, here], here⟩

theorem markAt_outside {marks : List BufferPoint} {hseq : Int} (outside : ¬ InRange marks hseq) :
    markAt marks hseq = none := by
  rw [markAt]
  split
  next positive => exact List.getElem?_eq_none (by rw [InRange] at outside; omega)
  next => rfl

def setMark (line shift : Int) (marks : List BufferPoint) (a : Anchor) : List BufferPoint :=
  match markAt marks a.hseq with
  | some mark => if mark.line = line then marks.set a.hseq.toNat { mark with pos := a.start.pos + shift } else marks
  | none => marks

theorem setMark_length (line shift : Int) (marks : List BufferPoint) (a : Anchor) :
    (setMark line shift marks a).length = marks.length := by
  rw [setMark]
  split
  · split
    · exact List.length_set
    · rfl
  · rfl

theorem linearShift_later {a : Anchor} (later : line < a.start.line) (single : a.start.line = a.stop.line) :
    ¬ Moved line pos a ∧ linearShift line pos shift a = a := by
  have still : ¬ Moved line pos a := fun moved => by
    have := moved.1
    omega
  refine ⟨still, ?_⟩
  rw [linearShift, newStart, newStop, if_neg still, if_neg fun both => by omega]

theorem linearShift_here {a : Anchor} (single : a.start.line = a.stop.line ∧ a.start.pos ≤ a.stop.pos)
    (here : ¬ line < a.start.line) (reaches : ¬ EntirelyBefore a ⟨line, pos⟩) :
    (Moved line pos a ↔ pos < a.start.pos) ∧ pos ≤ a.stop.pos ∧
      newStop line pos shift a = a.stop.shift shift := by
  have ends := reaches
  rw [EntirelyBefore, bpcmp_nonpos] at ends
  dsimp only at ends
  refine ⟨?_, by omega, ?_⟩
  · rw [Moved]
    omega
  · rw [newStop, if_pos ⟨by omega, reaches⟩]

theorem shiftRest_linear {rest : List Anchor} (ordered : rest.Pairwise fun a b => bpcmp a.stop b.start ≤ 0)
    (single : ∀ a ∈ rest, a.start.line = a.stop.line ∧ a.start.pos ≤ a.stop.pos)
    (reaches : ∀ a ∈ rest, ¬ EntirelyBefore a ⟨line, pos⟩) (marks : List BufferPoint) :
    ((∀ a ∈ rest, Moved line pos a → InRange marks a.hseq) →
      shiftRest line pos shift rest marks =
        some (rest.map (linearShift line pos shift),
          (rest.filter fun a => decide (Moved line pos a)).foldl (setMark line shift) marks)) ∧
      (∀ a ∈ rest, Moved line pos a → ¬ InRange marks a.hseq → shiftRest line pos shift rest marks = none) := by
  induction rest generalizing marks with
  | nil => exact ⟨fun _ => rfl, fun a member => absurd member List.not_mem_nil⟩
  | cons a rest ih =>
      have tail := (List.pairwise_cons.mp ordered).2
      have aSingle := single a (.head _)
      by_cases later : line < a.start.line
      · have still : ∀ c ∈ a :: rest, ¬ Moved line pos c ∧ linearShift line pos shift c = c := by
          intro c member
          refine linearShift_later ?_ (single c member).1
          rcases List.mem_cons.mp member with rfl | behind
          · exact later
          · have := (List.pairwise_cons.mp ordered).1 c behind
            rw [bpcmp_nonpos] at this
            omega
        have same : (a :: rest).map (linearShift line pos shift) = a :: rest :=
          (List.map_congr_left fun c member => (still c member).2).trans (List.map_id _)
        have none : ((a :: rest).filter fun c => decide (Moved line pos c)) = [] :=
          List.filter_eq_nil_iff.mpr fun c member => by simpa using (still c member).1
        rw [shiftRest, if_pos later, same, none]
        exact ⟨fun _ => rfl, fun c member moved => absurd moved (still c member).1⟩
      · obtain ⟨moves, within, stop⟩ := @linearShift_here line pos shift a aSingle later (reaches a (.head _))
        have next := fun marks => ih tail (fun c member => single c (.tail _ member))
          (fun c member => reaches c (.tail _ member)) marks
        rw [shiftRest, if_neg later, shiftStart]
        by_cases moved : Moved line pos a
        · rw [if_pos (moves.mp moved), List.filter_cons_of_pos (by simpa using moved), List.foldl_cons]
          by_cases inside : InRange marks a.hseq
          · obtain ⟨mark, found, -⟩ := markAt_inRange inside
            have set : setMark line shift marks a =
                if mark.line = line then marks.set a.hseq.toNat { mark with pos := a.start.pos + shift } else marks := by
              rw [setMark, found]
            have length := setMark_length line shift marks a
            rw [found]
            dsimp only [Option.bind_eq_bind, Option.bind_some]
            rw [← set, if_pos within]
            have further := next (setMark line shift marks a)
            have range : ∀ c : Anchor, InRange (setMark line shift marks a) c.hseq ↔ InRange marks c.hseq := by
              intro c
              rw [InRange, InRange, length]
            constructor
            · intro all
              rw [further.1 fun c member shifted => (range c).mpr (all c (.tail _ member) shifted)]
              rw [List.map_cons, linearShift, newStart, if_pos moved, stop]
              rfl
            · intro c member shifted outside
              rcases List.mem_cons.mp member with rfl | behind
              · exact absurd inside outside
              · rw [further.2 c behind shifted fun other => outside ((range c).mp other)]
                rfl
          · rw [markAt_outside inside]
            exact ⟨fun all => absurd (all a (.head _) moved) inside, fun _ _ _ _ => rfl⟩
        · rw [if_neg fun behind => moved (moves.mpr behind), List.filter_cons_of_neg (by simpa using moved)]
          dsimp only [Option.bind_eq_bind, Option.bind_some]
          rw [if_pos within]
          constructor
          · intro all
            rw [(next marks).1 fun c member => all c (.tail _ member)]
            rw [List.map_cons, linearShift, newStart, if_neg moved, stop]
            rfl
          · intro c member shifted outside
            rcases List.mem_cons.mp member with rfl | behind
            · exact absurd shifted moved
            · rw [(next marks).2 c behind shifted outside]
              rfl

def lastWith (hseq : Nat) (moved : List Anchor) : Option Anchor :=
  (moved.filter fun a : Anchor => decide (a.hseq = (hseq : Int))).getLast?

def markBy (line shift : Int) (mark : BufferPoint) (last : Option Anchor) : BufferPoint :=
  match last with
  | some a => if mark.line = line then { mark with pos := a.start.pos + shift } else mark
  | none => mark

theorem lastWith_concat (hseq : Nat) (moved : List Anchor) (a : Anchor) :
    lastWith hseq (moved ++ [a]) = if a.hseq = (hseq : Int) then some a else lastWith hseq moved := by
  rw [lastWith, List.filter_append]
  split
  next same => rw [List.filter_cons_of_pos (by simpa using same), List.filter_nil, List.getLast?_concat]
  next other => rw [List.filter_cons_of_neg (by simpa using other), List.filter_nil, List.append_nil, lastWith]

theorem markBy_markBy (mark : BufferPoint) (earlier : Option Anchor) (a : Anchor) :
    markBy line shift (markBy line shift mark earlier) (some a) = markBy line shift mark (some a) := by
  cases earlier with
  | none => rfl
  | some b =>
      dsimp only [markBy]
      by_cases onLine : mark.line = line
      · rw [if_pos onLine, if_pos onLine]
        dsimp only
        rw [if_pos onLine]
      · rw [if_neg onLine, if_neg onLine]

theorem setMark_getElem? (marks : List BufferPoint) (a : Anchor) (hseq : Nat) :
    (setMark line shift marks a)[hseq]? =
      marks[hseq]?.map fun mark => markBy line shift mark (if a.hseq = (hseq : Int) then some a else none) := by
  have still : (marks[hseq]?.map fun mark => markBy line shift mark none) = marks[hseq]? := Option.map_id'
  by_cases inside : InRange marks a.hseq
  · obtain ⟨mark, found, here⟩ := markAt_inRange inside
    rw [setMark, found]
    by_cases same : a.hseq = hseq
    · have index : a.hseq.toNat = hseq := by omega
      rw [if_pos same, ← index, here, Option.map_some]
      dsimp only [markBy]
      split
      next onLine => rw [List.getElem?_set_self (List.getElem?_eq_some_iff.mp here).1]
      next => exact here
    · have index : a.hseq.toNat ≠ hseq := by
        have := inside.1
        omega
      rw [if_neg same, still]
      dsimp only
      split
      · rw [List.getElem?_set_ne index]
      · rfl
  · rw [setMark, markAt_outside inside]
    by_cases same : a.hseq = hseq
    · have nothing : marks[hseq]? = none := by
        rw [InRange, same] at inside
        exact List.getElem?_eq_none (by omega)
      rw [nothing, Option.map_none]
    · rw [if_neg same, still]

theorem foldl_setMark_getElem? (marks : List BufferPoint) (moved : List Anchor) (hseq : Nat) :
    (moved.foldl (setMark line shift) marks)[hseq]? =
      marks[hseq]?.map fun mark => markBy line shift mark (lastWith hseq moved) := by
  induction moved using List.reverseRecOn with
  | nil => exact Option.map_id'.symm
  | append_singleton moved a ih =>
      rw [List.foldl_append, List.foldl_cons, List.foldl_nil, setMark_getElem?, ih, Option.map_map]
      refine congrArg (fun f => marks[hseq]?.map f) (funext fun mark => ?_)
      rw [Function.comp_apply, lastWith_concat]
      split
      · exact markBy_markBy mark _ a
      · rfl

end Rest

/-! The whole run. -/

section Run

variable (page : ShiftedLine)

theorem ShiftedLine.starts : ∀ a ∈ page.anchors, bpcmp a.start a.stop ≤ 0 := by
  intro a member
  have := page.single a member
  rw [bpcmp_nonpos]
  omega

def ShiftedLine.moved : List Anchor := page.anchors.filter fun a => decide (Moved page.line page.pos a)

theorem linearShift_before {line pos shift : Int} {a : Anchor}
    (single : a.start.line = a.stop.line ∧ a.start.pos ≤ a.stop.pos) (before : EntirelyBefore a ⟨line, pos⟩) :
    ¬ Moved line pos a ∧ linearShift line pos shift a = a := by
  have ends := before
  rw [EntirelyBefore, bpcmp_nonpos] at ends
  have still : ¬ Moved line pos a := by
    rintro ⟨here, behind⟩
    dsimp only at ends
    omega
  refine ⟨still, ?_⟩
  rw [linearShift, newStart, newStop, if_neg still, if_neg fun both => both.2 before]

theorem shiftAnchorPosition_run :
    ((∀ a ∈ page.anchors, Moved page.line page.pos a → InRange page.marks a.hseq) →
      shiftAnchorPosition page.anchors page.marks page.line page.pos page.shift =
        some (page.anchors.map (linearShift page.line page.pos page.shift),
          page.moved.foldl (setMark page.line page.shift) page.marks)) ∧
      (∀ a ∈ page.anchors, Moved page.line page.pos a → ¬ InRange page.marks a.hseq →
        shiftAnchorPosition page.anchors page.marks page.line page.pos page.shift = none) := by
  rw [shiftAnchorPosition]
  by_cases empty : page.anchors = []
  · rw [if_pos empty, ShiftedLine.moved, empty]
    exact ⟨fun _ => rfl, fun a member => absurd member List.not_mem_nil⟩
  · have some := List.length_pos_iff.mpr empty
    have countable := page.countable
    have searching : Searching page.anchors ⟨page.line, page.pos⟩ 0 (page.anchors.length - 1) := by
      refine ⟨by omega, fun i a before => absurd before (Nat.not_lt_zero i), fun i a behind here => ?_⟩
      have := (List.getElem?_eq_some_iff.mp here).1
      omega
    obtain ⟨place, found, front, back⟩ : ∃ place,
        shiftSearch page.anchors page.line page.pos (page.anchors.length + 1) 0 (page.anchors.length - 1)
          (page.anchors.length / 2) = .some place ∧
        (∀ i a, i < place → page.anchors[i]? = .some a → EntirelyBefore a ⟨page.line, page.pos⟩) ∧
        ∀ i a, place ≤ i → page.anchors[i]? = .some a → ¬ EntirelyBefore a ⟨page.line, page.pos⟩ :=
      shiftSearch_place page.ordered page.starts countable searching (by omega) (Nat.succ_pos _) (Nat.zero_le _)
        ⟨fun _ => by omega, fun none => by omega⟩
    have before : ∀ a ∈ page.anchors.take place, ¬ Moved page.line page.pos a ∧
        linearShift page.line page.pos page.shift a = a := by
      intro a member
      obtain ⟨i, inside, rfl⟩ := List.getElem_of_mem member
      rw [List.length_take] at inside
      refine linearShift_before (page.single _ (List.mem_of_mem_take member)) (front i _ (by omega) ?_)
      rw [List.getElem_take, List.getElem?_eq_getElem]
    have reaches : ∀ a ∈ page.anchors.drop place, ¬ EntirelyBefore a ⟨page.line, page.pos⟩ := by
      intro a member
      obtain ⟨i, inside, rfl⟩ := List.getElem_of_mem member
      rw [List.length_drop] at inside
      refine back (place + i) _ (Nat.le_add_right place i) ?_
      rw [List.getElem_drop, List.getElem?_eq_getElem]
    have parts := List.take_append_drop place page.anchors
    have map : page.anchors.map (linearShift page.line page.pos page.shift) =
        page.anchors.take place ++ (page.anchors.drop place).map (linearShift page.line page.pos page.shift) := by
      conv_lhs => rw [← parts, List.map_append]
      refine congrArg (· ++ _) ?_
      exact (List.map_congr_left fun a member => (before a member).2).trans (List.map_id _)
    have filter : page.moved = (page.anchors.drop place).filter fun a => decide (Moved page.line page.pos a) := by
      rw [ShiftedLine.moved]
      conv_lhs => rw [← parts, List.filter_append]
      rw [List.filter_eq_nil_iff.mpr fun a member => by simpa using (before a member).1, List.nil_append]
    have dropped := fun a (member : a ∈ page.anchors.drop place) => List.mem_of_mem_drop member
    have rest := @shiftRest_linear page.line page.pos page.shift _ (page.ordered.sublist (List.drop_sublist place page.anchors))
      (fun a member => page.single a (dropped a member)) reaches page.marks
    rw [if_neg empty, show (page.anchors.length : Int) - 1 = (page.anchors.length - 1 : Nat) by omega,
      sizeT_nat (by omega), found]
    dsimp only [Option.bind_eq_bind, Option.bind_some]
    constructor
    · intro all
      rw [rest.1 fun a member => all a (dropped a member), map, filter]
      rfl
    · intro a member moved outside
      rw [← parts, List.mem_append] at member
      rcases member with first | second
      · exact absurd moved (before a first).1
      · rw [rest.2 a second moved outside]
        rfl

/-! What a marker becomes. -/

theorem ShiftedLine.mem_moved {a : Anchor} :
    a ∈ page.moved ↔ a ∈ page.anchors ∧ Moved page.line page.pos a := by
  rw [ShiftedLine.moved, List.mem_filter, decide_eq_true_eq]

theorem ShiftedLine.first_exists {a : Anchor} (member : a ∈ page.anchors) :
    ∃ first, firstAnchor page.anchors a.hseq = some first := by
  rw [← Option.isSome_iff_exists, firstAnchor, List.find?_isSome]
  exact ⟨a, member, decide_eq_true rfl⟩

theorem ShiftedLine.first_keeps {a first : Anchor} (member : a ∈ page.anchors)
    (found : firstAnchor page.anchors a.hseq = some first) :
    bpcmp (newStart page.line page.pos page.shift first) (newStart page.line page.pos page.shift a) ≤ 0 := by
  obtain ⟨_, front, back, split, none⟩ := List.find?_eq_some_iff_append.mp found
  rw [split, List.mem_append, List.mem_cons] at member
  rcases member with before | rfl | behind
  · have other := none a before
    simp at other
  · rw [bpcmp_nonpos]
    omega
  · have keeps := page.keeps
    rw [split] at keeps
    exact (List.pairwise_cons.mp (List.pairwise_append.mp keeps).2.1).1 a behind

theorem ShiftedLine.last_keeps {hseq : Nat} {a last : Anchor} (member : a ∈ page.moved) (same : a.hseq = hseq)
    (found : lastWith hseq page.moved = some last) :
    bpcmp (newStart page.line page.pos page.shift a) (newStart page.line page.pos page.shift last) ≤ 0 := by
  obtain ⟨front, split⟩ := List.getLast?_eq_some_iff.mp found
  have part : (front ++ [last]).Sublist page.anchors := split ▸ List.filter_sublist.trans List.filter_sublist
  have keeps := page.keeps.sublist part
  have inside : a ∈ front ++ [last] := split ▸ List.mem_filter.mpr ⟨member, decide_eq_true same⟩
  rw [List.mem_append, List.mem_singleton] at inside
  rcases inside with before | rfl
  · exact (List.pairwise_append.mp keeps).2.2 a before last (.head _)
  · rw [bpcmp_nonpos]
    omega

theorem newStart_moved {line pos shift : Int} {a : Anchor} (moved : Moved line pos a) :
    newStart line pos shift a = ⟨line, a.start.pos + shift⟩ := by
  rw [newStart, if_pos moved, BufferPoint.shift, moved.1]

theorem ShiftedLine.linearMark_first {hseq : Nat} {mark : BufferPoint} {first : Anchor}
    (here : page.marks[hseq]? = some mark) (found : firstAnchor page.anchors hseq = some first) :
    linearMark page.anchors page.line page.pos page.shift hseq mark =
      newStart page.line page.pos page.shift first := by
  rw [linearMark, found, page.marked hseq mark here first found]
  rfl

/-- The marker is the one of the definition where what moves with its number goes where the first
anchor goes. -/
theorem ShiftedLine.markBy_iff {hseq : Nat} {mark : BufferPoint} (here : page.marks[hseq]? = some mark) :
    markBy page.line page.shift mark (lastWith hseq page.moved) =
        linearMark page.anchors page.line page.pos page.shift hseq mark ↔
      ∀ a ∈ page.moved, a.hseq = hseq → ∀ first, firstAnchor page.anchors hseq = some first →
        first.start.line = page.line →
          newStart page.line page.pos page.shift first = newStart page.line page.pos page.shift a := by
  cases last : lastWith hseq page.moved with
  | none =>
      have nobody : ∀ a ∈ page.moved, a.hseq ≠ hseq := fun a member same => by
        have empty := List.filter_eq_nil_iff.mp (List.getLast?_eq_none_iff.mp last) a member
        exact empty (decide_eq_true same)
      refine ⟨fun _ a member same => absurd same (nobody a member), fun _ => ?_⟩
      rw [markBy, linearMark]
      split
      next first found =>
        have number : first.hseq = hseq := by simpa using List.find?_some found
        refine (if_neg fun moved => nobody first ?_ number).symm
        exact page.mem_moved.mpr ⟨List.mem_of_find?_eq_some found, moved⟩
      next => rfl
  | some last' =>
      obtain ⟨front, split⟩ := List.getLast?_eq_some_iff.mp last
      have inside := List.mem_filter.mp (split ▸ List.mem_concat_self : last' ∈ page.moved.filter _)
      have number : last'.hseq = hseq := of_decide_eq_true inside.2
      have moved := (page.mem_moved.mp inside.1).2
      obtain ⟨first, found⟩ := page.first_exists (page.mem_moved.mp inside.1).1
      rw [number] at found
      have start := page.marked hseq mark here first found
      rw [page.linearMark_first here found, markBy]
      by_cases onLine : first.start.line = page.line
      · have set : (if mark.line = page.line then { mark with pos := last'.start.pos + page.shift } else mark) =
            newStart page.line page.pos page.shift last' := by
          rw [newStart_moved moved, start, if_pos onLine, onLine]
        rw [set]
        constructor
        · intro same a member with' other found' _
          obtain rfl : other = first := Option.some.inj (found'.symm.trans found)
          rw [← with'] at found'
          refine bpcmp_antisymm (page.first_keeps (page.mem_moved.mp member).1 found') ?_
          exact same ▸ page.last_keeps member with' last
        · intro all
          exact (all last' inside.1 number first found onLine).symm
      · have still : newStart page.line page.pos page.shift first = mark := by
          rw [newStart, if_neg fun both => onLine both.1, start]
        rw [if_neg fun both => onLine (start ▸ both), still]
        refine ⟨fun _ a _ _ other found' here' => ?_, fun _ => rfl⟩
        obtain rfl : other = first := Option.some.inj (found'.symm.trans found)
        exact absurd here' onLine

/-- The marker of the anchor is there, and the first anchor with its number goes to the same place
where it is in the line. -/
def ShiftedLine.FollowsFirst (a : Anchor) : Prop :=
  InRange page.marks a.hseq ∧ ∀ first, firstAnchor page.anchors a.hseq = some first → first.start.line = page.line →
    newStart page.line page.pos page.shift first = newStart page.line page.pos page.shift a

/-- The shift is the plain one exactly where every anchor that moves has a marker that moves with it.
A link with an empty reference has no marker: its `hseq` is -1. -/
theorem shiftAnchorPosition_linear_iff :
    shiftAnchorPosition page.anchors page.marks page.line page.pos page.shift =
        some (page.anchors.map (linearShift page.line page.pos page.shift),
          linearMarks page.anchors page.marks page.line page.pos page.shift) ↔
      ∀ a ∈ page.anchors, Moved page.line page.pos a → page.FollowsFirst a := by
  obtain ⟨shifted, outside⟩ := shiftAnchorPosition_run page
  by_cases inside : ∀ a ∈ page.anchors, Moved page.line page.pos a → InRange page.marks a.hseq
  · rw [shifted inside, Option.some.injEq, Prod.mk.injEq]
    constructor
    · rintro ⟨_, same⟩ a member moved
      refine ⟨inside a member moved, fun first found onLine => ?_⟩
      obtain ⟨mark, -, here⟩ := markAt_inRange (inside a member moved)
      have number : ((a.hseq.toNat : Nat) : Int) = a.hseq := Int.toNat_of_nonneg (inside a member moved).1
      have equal := congrArg (fun marks : List BufferPoint => marks[a.hseq.toNat]?) same
      rw [foldl_setMark_getElem?, linearMarks, List.getElem?_mapIdx, here, Option.map_some, Option.map_some,
        Option.some.injEq, page.markBy_iff here, number] at equal
      exact equal a (page.mem_moved.mpr ⟨member, moved⟩) rfl first found onLine
    · intro all
      refine ⟨rfl, List.ext_getElem? fun hseq => ?_⟩
      rw [foldl_setMark_getElem?, linearMarks, List.getElem?_mapIdx]
      cases here : page.marks[hseq]? with
      | none => rfl
      | some mark =>
          refine congrArg some ((page.markBy_iff here).mpr fun a member number first found onLine => ?_)
          obtain ⟨listed, moved⟩ := page.mem_moved.mp member
          exact (all a listed moved).2 first (number ▸ found) onLine
  · rw [not_forall] at inside
    obtain ⟨a, inside⟩ := inside
    rw [Classical.not_imp, Classical.not_imp] at inside
    obtain ⟨member, moved, without⟩ := inside
    rw [outside a member moved without]
    exact ⟨fun same => absurd same (by simp), fun all => absurd (all a member moved).1 without⟩

def emptyName : ShiftedLine where
  anchors := [⟨⟨none, none, none, none, 0⟩, false, ⟨0, 5⟩, ⟨0, 5⟩, -1⟩]
  marks := [⟨0, 1⟩]
  line := 0
  pos := 2
  shift := 1
  ordered := List.pairwise_singleton _ _
  single := by decide
  countable := by decide
  marked := fun hseq mark _ first found => by
    have other := List.find?_some found
    rw [List.mem_singleton.mp (List.mem_of_find?_eq_some found), decide_eq_true_eq] at other
    exact absurd other (by dsimp only; omega)
  keeps := List.pairwise_singleton _ _

/-- `hseq` -1 is taken as an index. -/
theorem shiftAnchorPosition_emptyName :
    ¬ ∀ page : ShiftedLine, shiftAnchorPosition page.anchors page.marks page.line page.pos page.shift =
      some (page.anchors.map (linearShift page.line page.pos page.shift),
        linearMarks page.anchors page.marks page.line page.pos page.shift) := by
  intro all
  exact absurd (all emptyName) (by decide)

end Run

end KcnTools.Anchors
