import KcnTools.W3m.Anchor
import Mathlib

/-!
Looking up the anchor at a position: the binary search may begin at any index of the list.
-/

namespace KcnTools.Anchors

theorem bpcmp_neg (a b : BufferPoint) : bpcmp a b < 0 ↔ a.line < b.line ∨ a.line = b.line ∧ a.pos < b.pos := by
  rw [bpcmp]
  split <;> omega

theorem bpcmp_nonpos (a b : BufferPoint) : bpcmp a b ≤ 0 ↔ a.line < b.line ∨ a.line = b.line ∧ a.pos ≤ b.pos := by
  rw [bpcmp]
  split <;> omega

theorem bpcmp_trans {a b c : BufferPoint} (first : bpcmp a b ≤ 0) (second : bpcmp b c ≤ 0) : bpcmp a c ≤ 0 := by
  rw [bpcmp_nonpos] at *
  omega

theorem bpcmp_antisymm {a b : BufferPoint} (le : bpcmp a b ≤ 0) (ge : bpcmp b a ≤ 0) : a = b := by
  rw [bpcmp_nonpos] at le ge
  obtain ⟨aLine, aPos⟩ := a
  obtain ⟨bLine, bPos⟩ := b
  rw [BufferPoint.mk.injEq]
  dsimp only at le ge
  omega

theorem bpcmp_neg_of_ne {a b : BufferPoint} (le : bpcmp a b ≤ 0) (other : a ≠ b) : bpcmp a b < 0 := by
  by_cases less : bpcmp a b < 0
  · exact less
  · refine absurd (bpcmp_antisymm le ?_) other
    rw [bpcmp_nonpos] at le ⊢
    rw [bpcmp_neg] at less
    omega

def Covers (a : Anchor) (bp : BufferPoint) : Prop := bpcmp a.start bp ≤ 0 ∧ bpcmp bp a.stop < 0

theorem onAnchor_eq_zero (a : Anchor) (line pos : Int) : onAnchor a line pos = 0 ↔ Covers a ⟨line, pos⟩ := by
  have before := bpcmp_neg ⟨line, pos⟩ a.start
  have notBefore := bpcmp_nonpos a.start ⟨line, pos⟩
  have behind := bpcmp_nonpos a.stop ⟨line, pos⟩
  have notBehind := bpcmp_neg ⟨line, pos⟩ a.stop
  dsimp only at *
  rw [onAnchor, Covers]
  split
  · omega
  · split <;> omega

theorem onAnchor_pos {a : Anchor} {line pos : Int} : 0 < onAnchor a line pos → bpcmp a.stop ⟨line, pos⟩ ≤ 0 := by
  intro positive
  rw [onAnchor] at positive
  split at positive
  · omega
  · split at positive
    · assumption
    · omega

theorem onAnchor_neg {a : Anchor} {line pos : Int} : onAnchor a line pos < 0 → bpcmp ⟨line, pos⟩ a.start < 0 := by
  intro negative
  rw [onAnchor] at negative
  split at negative
  · assumption
  · split at negative <;> omega

def SortedByStart (anchors : List Anchor) : Prop := anchors.Pairwise fun a b => bpcmp a.start b.start ≤ 0

/-! Building a list. -/

def notBefore (bp : BufferPoint) (a : Anchor) : Bool := decide (0 ≤ bpcmp a.start bp)

theorem notBefore_iff {bp : BufferPoint} {a : Anchor} : notBefore bp a = true ↔ bpcmp bp a.start ≤ 0 := by
  rw [notBefore, decide_eq_true_eq, ← Int.not_lt, bpcmp_neg, bpcmp_nonpos]
  omega

theorem notBefore_false {bp : BufferPoint} {a : Anchor} : notBefore bp a = false ↔ bpcmp a.start bp < 0 := by
  rw [notBefore, decide_eq_false_iff_not, Int.not_le]

theorem insertPlace_sorted {anchors : List Anchor} (sorted : SortedByStart anchors) (bp : BufferPoint) :
    insertPlace anchors bp = anchors.findIdx (notBefore bp) := by
  rw [insertPlace]
  cases ends : anchors.getLast? with
  | none =>
      rw [List.getLast?_eq_none_iff.mp ends]
      rfl
  | some last =>
      dsimp only
      split
      next before =>
        obtain ⟨front, rfl⟩ := List.getLast?_eq_some_iff.mp ends
        refine (List.findIdx_eq_length_of_false fun a member => ?_).symm
        rw [notBefore_false]
        have ordered := List.pairwise_append.mp sorted
        rcases List.mem_append.mp member with inside | here
        · have := ordered.2.2 a inside last (.head _)
          rw [bpcmp_neg] at *
          rw [bpcmp_nonpos] at this
          omega
        · rw [List.mem_singleton.mp here]
          exact before
      next => rfl

theorem insertIdx_findIdx (anchors : List Anchor) (bp : BufferPoint) (new : Anchor) :
    anchors.insertIdx (anchors.findIdx (notBefore bp)) new =
      (anchors.takeWhile fun a => !notBefore bp a) ++ new :: anchors.dropWhile fun a => !notBefore bp a := by
  induction anchors with
  | nil => rfl
  | cons a anchors ih =>
      rw [List.findIdx_cons]
      cases behind : notBefore bp a with
      | true =>
          rw [List.takeWhile_cons_of_neg (by simp [behind]), List.dropWhile_cons_of_neg (by simp [behind])]
          rfl
      | false =>
          rw [List.takeWhile_cons_of_pos (by simp [behind]), List.dropWhile_cons_of_pos (by simp [behind]),
            cond_false, List.insertIdx_succ_cons, ih]
          rfl

theorem putAnchor_anchors {al : AnchorList} (sorted : SortedByStart al.anchors) (data : AnchorData) (bp : BufferPoint)
    (unused : Int) :
    ∃ hseq, (putAnchor al data bp unused).anchors =
      (al.anchors.takeWhile fun a => !notBefore bp a) ++ ⟨data, false, bp, bp, hseq⟩ ::
        al.anchors.dropWhile fun a => !notBefore bp a := by
  refine ⟨(al.anchors[insertPlace al.anchors bp]?.map (·.hseq)).getD unused, ?_⟩
  rw [← insertIdx_findIdx, ← insertPlace_sorted sorted]
  rfl

theorem putAnchor_sorted {al : AnchorList} (sorted : SortedByStart al.anchors) (data : AnchorData) (bp : BufferPoint)
    (unused : Int) : SortedByStart (putAnchor al data bp unused).anchors := by
  obtain ⟨hseq, same⟩ := putAnchor_anchors sorted data bp unused
  have parts := List.takeWhile_append_dropWhile (p := fun a => !notBefore bp a) (l := al.anchors)
  have ordered := sorted
  rw [SortedByStart, ← parts, List.pairwise_append] at ordered
  have front : ∀ a ∈ al.anchors.takeWhile fun a => !notBefore bp a, bpcmp a.start bp ≤ 0 := by
    intro a member
    have before := List.mem_takeWhile_imp member
    exact Int.le_of_lt (notBefore_false.mp (by simpa using before))
  have back : ∀ a ∈ al.anchors.dropWhile fun a => !notBefore bp a, bpcmp bp a.start ≤ 0 := by
    cases rest : al.anchors.dropWhile fun a => !notBefore bp a with
    | nil => exact fun a member => absurd member List.not_mem_nil
    | cons first rest' =>
        have behind : bpcmp bp first.start ≤ 0 := by
          have head := List.head?_dropWhile_not (fun a => !notBefore bp a) al.anchors
          rw [rest] at head
          have firstBehind : notBefore bp first = true := by simpa using head
          exact notBefore_iff.mp firstBehind
        rw [rest] at ordered
        intro a member
        rcases List.mem_cons.mp member with rfl | later
        · exact behind
        · exact bpcmp_trans behind ((List.pairwise_cons.mp ordered.2.1).1 a later)
  rw [SortedByStart, same, List.pairwise_append, List.pairwise_cons]
  refine ⟨ordered.1, ⟨back, ordered.2.1⟩, fun a first b second => ?_⟩
  rcases List.mem_cons.mp second with rfl | later
  · exact front a first
  · exact ordered.2.2 a first b later

theorem putAnchor_perm (al : AnchorList) (data : AnchorData) (bp : BufferPoint) (unused : Int) :
    ∃ hseq, (putAnchor al data bp unused).anchors.Perm (⟨data, false, bp, bp, hseq⟩ :: al.anchors) := by
  refine ⟨_, List.perm_insertIdx _ _ ?_⟩
  rw [insertPlace]
  split
  · exact Nat.zero_le _
  · split
    · exact Nat.le_refl _
    · exact List.findIdx_le_length

/-! Searching. -/

/-- The anchors are neither empty nor do two of them share a position. -/
structure Apart (anchors : List Anchor) : Prop where
  filled : ∀ a ∈ anchors, bpcmp a.start a.stop < 0
  apart : anchors.Pairwise fun a b => bpcmp a.stop b.start ≤ 0 ∨ bpcmp b.stop a.start ≤ 0

theorem Apart.ordered {anchors : List Anchor} (apart : Apart anchors) (sorted : SortedByStart anchors) :
    anchors.Pairwise fun a b => bpcmp a.stop b.start ≤ 0 := by
  refine (apart.apart.and sorted).imp_of_mem fun {a b} first second both => ?_
  rcases both.1 with before | behind
  · exact before
  · have filled := apart.filled b second
    have start := both.2
    rw [bpcmp_neg] at filled
    rw [bpcmp_nonpos] at behind start
    omega

theorem sizeT_nat {n : Nat} (small : n < 2 ^ 64) : sizeT n = n := by
  rw [sizeT]
  omega

theorem wrapInt_nat {n : Nat} (small : n < 2 ^ 31) : wrapInt n = n := by
  rw [wrapInt]
  omega

theorem anchorAt_nat (anchors : List Anchor) (i : Nat) : anchorAt anchors i = anchors[i]? := by
  rw [anchorAt, if_pos (Int.natCast_nonneg i)]
  rfl

def Finds (anchors : List Anchor) (bp : BufferPoint) (result : Option Int) : Prop :=
  match result with
  | some i => ∃ a, anchorAt anchors i = some a ∧ Covers a bp
  | none => ∀ a ∈ anchors, ¬ Covers a bp

/-- The bounds of the search: the anchors outside them do not cover the position. -/
structure Searching (anchors : List Anchor) (bp : BufferPoint) (b e : Nat) : Prop where
  last : e < anchors.length
  front : ∀ i a, i < b → anchors[i]? = some a → bpcmp a.stop bp ≤ 0
  back : ∀ i a, e < i → anchors[i]? = some a → bpcmp bp a.start < 0

theorem Searching.outside {anchors : List Anchor} {bp : BufferPoint} {b e : Nat} (searching : Searching anchors bp b e)
    {i : Nat} {a : Anchor} (here : anchors[i]? = some a) (covers : Covers a bp) : b ≤ i ∧ i ≤ e := by
  obtain ⟨start, stop⟩ := covers
  constructor
  · apply Nat.not_lt.mp
    intro before
    have := searching.front i a before here
    rw [bpcmp_nonpos] at this
    rw [bpcmp_neg] at stop
    omega
  · apply Nat.not_lt.mp
    intro behind
    have := searching.back i a behind here
    rw [bpcmp_neg] at this
    rw [bpcmp_nonpos] at start
    omega

theorem ordered_getElem? {anchors : List Anchor} (ordered : anchors.Pairwise fun a b => bpcmp a.stop b.start ≤ 0)
    {i j : Nat} {a c : Anchor} (before : i < j) (first : anchors[i]? = some a) (second : anchors[j]? = some c) :
    bpcmp a.stop c.start ≤ 0 := by
  obtain ⟨inside, rfl⟩ := List.getElem?_eq_some_iff.mp first
  obtain ⟨within, rfl⟩ := List.getElem?_eq_some_iff.mp second
  exact List.pairwise_iff_getElem.mp ordered i j inside within before

theorem retrieveLoop_finds {anchors : List Anchor} {line pos : Int}
    (ordered : anchors.Pairwise fun a b => bpcmp a.stop b.start ≤ 0)
    (filled : ∀ a ∈ anchors, bpcmp a.start a.stop < 0) (countable : anchors.length < 2 ^ 31) {rounds b e acache : Nat}
    (searching : Searching anchors ⟨line, pos⟩ b e) (enough : e + 2 ≤ rounds + b) (positive : 0 < rounds)
    (probe : b ≤ e → b ≤ acache ∧ acache ≤ e) :
    ∃ result cache, retrieveLoop anchors line pos rounds b e acache = some (result, cache) ∧
      Finds anchors ⟨line, pos⟩ result := by
  induction rounds generalizing b e acache with
  | zero => exact absurd positive (Nat.lt_irrefl 0)
  | succ rounds ih =>
      rw [retrieveLoop]
      by_cases empty : e < b
      · rw [if_pos empty]
        refine ⟨none, acache, rfl, fun a member covers => ?_⟩
        obtain ⟨i, inside, rfl⟩ := List.getElem_of_mem member
        have := searching.outside (List.getElem?_eq_getElem inside) covers
        omega
      · rw [if_neg empty]
        obtain ⟨low, high⟩ := probe (Nat.not_lt.mp empty)
        have last := searching.last
        obtain ⟨a, here⟩ : ∃ a, anchors[acache]? = some a := ⟨_, List.getElem?_eq_getElem (by omega)⟩
        have aFilled := filled a (List.mem_of_getElem? here)
        rw [anchorAt_nat, here]
        dsimp only
        by_cases found : onAnchor a line pos = 0
        · rw [if_pos found]
          exact ⟨some acache, acache, rfl, a, by rw [anchorAt_nat, here], (onAnchor_eq_zero a line pos).mp found⟩
        · rw [if_neg found]
          by_cases behind : 0 < onAnchor a line pos
          · -- the anchor ends in front of the position, and so do the ones before it
            have ends := onAnchor_pos behind
            rw [if_pos behind, show (acache : Int) + 1 = (acache + 1 : Nat) by omega, sizeT_nat (by omega),
              wrapInt_nat (by omega)]
            refine ih ⟨last, fun i c before there => ?_, searching.back⟩ (by omega) (by omega) fun more => by omega
            rcases Nat.lt_or_eq_of_le (Nat.le_of_lt_succ before) with earlier | rfl
            · have := ordered_getElem? ordered earlier there here
              rw [bpcmp_nonpos] at *
              rw [bpcmp_neg] at aFilled
              omega
            · rw [here, Option.some.injEq] at there
              exact there ▸ ends
          · -- the anchor starts behind the position, and so do the ones after it
            have starts := onAnchor_neg (by omega : onAnchor a line pos < 0)
            have backwards : ∀ i c, acache ≤ i → anchors[i]? = some c → bpcmp ⟨line, pos⟩ c.start < 0 := by
              intro i c after there
              rcases Nat.lt_or_eq_of_le after with later | rfl
              · have := ordered_getElem? ordered later here there
                rw [bpcmp_nonpos] at this
                rw [bpcmp_neg] at *
                omega
              · rw [here, Option.some.injEq] at there
                exact there ▸ starts
            rw [if_neg behind]
            by_cases first : acache = 0
            · rw [if_pos (by omega)]
              refine ⟨none, acache, rfl, fun c member covers => ?_⟩
              obtain ⟨i, inside, rfl⟩ := List.getElem_of_mem member
              have := backwards i _ (by omega) (List.getElem?_eq_getElem inside)
              have start := covers.1
              rw [bpcmp_neg] at this
              rw [bpcmp_nonpos] at start
              omega
            · rw [if_neg (by omega), show (acache : Int) - 1 = (acache - 1 : Nat) by omega, sizeT_nat (by omega),
                wrapInt_nat (by omega)]
              refine ih ⟨by omega, searching.front, fun i c after there => backwards i c (by omega) there⟩ (by omega)
                (by omega) fun more => by omega

structure PutCall where
  data : AnchorData
  bp : BufferPoint
  unused : Int

def putAnchors (calls : List PutCall) : AnchorList :=
  calls.foldl (fun al call => putAnchor al call.data call.bp call.unused) newAnchorList

theorem putAnchors_concat (calls : List PutCall) (call : PutCall) :
    putAnchors (calls ++ [call]) = putAnchor (putAnchors calls) call.data call.bp call.unused := by
  rw [putAnchors, List.foldl_append]
  rfl

theorem putAnchors_sorted (calls : List PutCall) : SortedByStart (putAnchors calls).anchors := by
  induction calls using List.reverseRecOn with
  | nil => exact .nil
  | append_singleton calls call ih =>
      rw [putAnchors_concat]
      exact putAnchor_sorted ih call.data call.bp call.unused

/-- The anchors of a list that calls have built, once they have been given ends -/
structure BuiltAnchors where
  calls : List PutCall
  anchors : List Anchor
  starts : anchors.map (·.start) = (putAnchors calls).anchors.map (·.start)
  apart : Apart anchors
  /-- `nanchor` is an `int`. -/
  countable : anchors.length < 2 ^ 31

theorem BuiltAnchors.sorted (built : BuiltAnchors) : SortedByStart built.anchors := by
  have sorted := putAnchors_sorted built.calls
  have starts : (built.anchors.map (·.start)).Pairwise fun a b => bpcmp a b ≤ 0 := by
    rw [built.starts]
    exact List.pairwise_map.mpr sorted
  exact List.pairwise_map.mp starts

/-- Whatever index the search begins with, it comes to the anchor at the position; a new anchor goes
to its place between the other ones. -/
theorem retrieveAnchor_exact (built : BuiltAnchors) (anchormax : Nat) (acache line pos : Int) :
    (∃ result cache, retrieveAnchor ⟨built.anchors, anchormax, acache⟩ line pos = some (result, cache) ∧
      Finds built.anchors ⟨line, pos⟩ result) ∧
      ∀ (al : AnchorList) (call : PutCall), SortedByStart al.anchors →
        SortedByStart (putAnchor al call.data call.bp call.unused).anchors ∧
          ∃ hseq, (putAnchor al call.data call.bp call.unused).anchors.Perm
            (⟨call.data, false, call.bp, call.bp, hseq⟩ :: al.anchors) := by
  constructor
  · rw [retrieveAnchor]
    dsimp only
    have countable := built.countable
    by_cases none : built.anchors = []
    · rw [if_pos none]
      refine ⟨.none, acache, rfl, ?_⟩
      rw [none]
      exact fun a member => absurd member List.not_mem_nil
    · have some := List.length_pos_iff.mpr none
      rw [if_neg none, show (built.anchors.length : Int) - 1 = (built.anchors.length - 1 : Nat) by omega,
        sizeT_nat (by omega)]
      have searching : Searching built.anchors ⟨line, pos⟩ 0 (built.anchors.length - 1) := by
        refine ⟨by omega, fun i a before => absurd before (Nat.not_lt_zero i), fun i a behind here => ?_⟩
        have := (List.getElem?_eq_some_iff.mp here).1
        omega
      have finds : ∀ probe : Nat, probe < built.anchors.length → ∃ result cache,
          retrieveLoop built.anchors line pos (built.anchors.length + 1) 0 (built.anchors.length - 1) probe =
            Option.some (result, cache) ∧ Finds built.anchors ⟨line, pos⟩ result := fun probe inside =>
        retrieveLoop_finds (built.apart.ordered built.sorted) built.apart.filled countable searching
          (by omega) (Nat.succ_pos _) fun _ => by omega
      by_cases stale : acache < 0 ∨ (built.anchors.length : Int) ≤ acache
      · rw [if_pos stale]
        exact finds 0 some
      · rw [if_neg stale]
        have := finds acache.toNat (by omega)
        rwa [Int.toNat_of_nonneg (by omega)] at this
  · intro al call sorted
    exact ⟨putAnchor_sorted sorted call.data call.bp call.unused, putAnchor_perm al call.data call.bp call.unused⟩

def linkTo (url : List UInt8) : AnchorData := ⟨some url, none, none, none, 0⟩

/-- Links "c" on line 2, "a" and "b" on line 0, put in this order. -/
def threeLinks : BuiltAnchors where
  calls := [⟨linkTo [99], ⟨2, 0⟩, -1⟩, ⟨linkTo [97], ⟨0, 4⟩, -1⟩, ⟨linkTo [98], ⟨0, 10⟩, -1⟩]
  anchors := [⟨linkTo [97], false, ⟨0, 4⟩, ⟨0, 8⟩, -1⟩, ⟨linkTo [98], false, ⟨0, 10⟩, ⟨1, 3⟩, -1⟩,
    ⟨linkTo [99], false, ⟨2, 0⟩, ⟨2, 5⟩, -1⟩]
  starts := by decide
  apart := ⟨by decide, by decide⟩
  countable := by decide

/-- The second line of "b" is found with a stale index. -/
theorem retrieveAnchor_exact_threeLinks :
    ∃ index cache a, retrieveAnchor ⟨threeLinks.anchors, 30, 2⟩ 1 2 = some (some index, cache) ∧
      anchorAt threeLinks.anchors index = some a ∧ Covers a ⟨1, 2⟩ := by
  obtain ⟨⟨result, cache, ran, finds⟩, -⟩ := retrieveAnchor_exact threeLinks 30 2 1 2
  cases result with
  | none => exact absurd ⟨by decide, by decide⟩ (finds _ (List.mem_cons_of_mem _ List.mem_cons_self))
  | some index =>
      obtain ⟨a, here, covers⟩ := finds
      exact ⟨index, cache, a, ran, here, covers⟩

end KcnTools.Anchors
