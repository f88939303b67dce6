import KcnTools.Cache.CacheInvariant
import Mathlib

/-! `get_cache_fragment`: the run of adjacent fragments from the start of the
document, and the `int` in which its length is added up. -/

namespace KcnTools.Cache

theorem wrapInt_of_bounds {value : Int} (lower : -2 ^ 31 ≤ value) (upper : value < 2 ^ 31) :
    wrapInt value = value := by
  rw [wrapInt]
  omega

theorem wrapInt_lt (value : Int) : wrapInt value < 2 ^ 31 := by
  rw [wrapInt]
  omega

theorem wrapInt_add (value more : Int) : wrapInt (wrapInt value + more) = wrapInt (value + more) := by
  simp only [wrapInt]
  omega

theorem newFragLen_eq (fragments : List Fragment) :
    newFragLen fragments = wrapInt (totalLength fragments) := by
  have general : ∀ length, fragments.foldl (fun length f => wrapInt (length + f.length))
      (wrapInt length) = wrapInt (length + totalLength fragments) := by
    induction fragments with
    | nil =>
        intro length
        rw [totalLength_nil, Int.add_zero, List.foldl_nil]
    | cons f rest ih =>
        intro length
        rw [List.foldl_cons, wrapInt_add, ih, totalLength_cons, Int.add_assoc]
  have start := general 0
  rwa [show wrapInt 0 = 0 from rfl, Int.zero_add] at start

theorem adjacentFragments_spec {prev : Fragment} {others : List Fragment} (prevOk : prev.Ok)
    (ok : ∀ f ∈ others, f.Ok)
    (ordered : (prev :: others).Pairwise fun f g => f.endOffset ≤ g.offset) :
    ∃ run rest, adjacentFragments prev others = some (run, rest) ∧ others = run ++ rest ∧
      Segment.Contiguous prev.endOffset (segments run) ∧
      ∀ f ∈ rest, prev.endOffset + totalLength run < f.offset := by
  induction others generalizing prev with
  | nil => exact ⟨[], [], rfl, rfl, trivial, by simp⟩
  | cons adj rest ih =>
      obtain ⟨apart, restOrdered⟩ := List.pairwise_cons.mp ordered
      have adjOk := ok adj (by simp)
      have adjLength := adjOk.nonnegative
      have adjEnd : adj.endOffset = adj.offset + adj.length := rfl
      have prevEnd : prev.endOffset = prev.offset + prev.length := rfl
      have near := apart adj (by simp)
      by_cases gap : adj.offset - (prev.offset + prev.length) > 0
      · refine ⟨[], adj :: rest, ?_, rfl, trivial, ?_⟩
        · simp only [adjacentFragments, if_pos gap]
        · intro f member
          rw [totalLength_nil]
          rcases List.mem_cons.mp member with rfl | later
          · omega
          · have beyond := (List.pairwise_cons.mp restOrdered).1 f later
            omega
      · obtain ⟨run, remaining, found, split, contiguous, beyond⟩ :=
          ih adjOk (fun f member => ok f (by simp [member])) restOrdered
        refine ⟨adj :: run, remaining, ?_, by rw [split]; rfl, ?_, ?_⟩
        · rw [adjacentFragments]
          simp only [if_neg gap, found, Option.map_some]
          rw [if_pos (by omega)]
        · refine ⟨by rw [segment_start]; omega, ?_⟩
          rw [segment_stop adjOk]
          exact contiguous
        · intro f member
          have far := beyond f member
          rw [totalLength_cons]
          omega

theorem segment_cells_length {f : Fragment} (ok : f.Ok) :
    (f.segment.cells.length : Int) = f.length := by
  have nonnegative := ok.nonnegative
  have fits := ok.fits
  have allocated := ok.allocated
  simp only [Fragment.segment, List.length_take]
  omega

theorem cells_length {fragments : List Fragment} (ok : ∀ f ∈ fragments, f.Ok) :
    (((segments fragments).flatMap Segment.cells).length : Int) = totalLength fragments := by
  induction fragments with
  | nil => rfl
  | cons f rest ih =>
      have head := segment_cells_length (ok f (by simp))
      have tail := ih fun g member => ok g (by simp [member])
      rw [segments_cons, List.flatMap_cons, List.length_append, totalLength_cons]
      omega

theorem copyFragments_spec {fragments : List Fragment} (data : List UInt8) {length : Int}
    (ok : ∀ f ∈ fragments, f.Ok) (nonnegative : 0 ≤ length)
    (room : length + totalLength fragments ≤ data.length) (small : (data.length : Int) < 2 ^ 31) :
    copyFragments fragments data length = some (data.take length.toNat ++
      (segments fragments).flatMap Segment.cells ++
      data.drop (length + totalLength fragments).toNat) := by
  induction fragments generalizing data length with
  | nil =>
      simp only [copyFragments, segments_nil, List.flatMap_nil, List.append_nil, totalLength_nil,
        Int.add_zero, List.take_append_drop]
  | cons f rest ih =>
      have fOk := ok f (by simp)
      have fLength := fOk.nonnegative
      have fits := fOk.fits
      have allocated := fOk.allocated
      have restOk : ∀ g ∈ rest, g.Ok := fun g member => ok g (by simp [member])
      have restLength := totalLength_nonneg restOk
      have cellsLength := segment_cells_length fOk
      rw [totalLength_cons] at room
      have read : Buffer.read f.data 0 f.length = some f.segment.cells := by
        rw [Buffer.read_eq_some (by omega) fLength (by omega)]
        rfl
      have written : Buffer.write data length f.segment.cells = some (data.take length.toNat ++
          f.segment.cells ++ data.drop (length.toNat + f.segment.cells.length)) :=
        Buffer.write_eq_some nonnegative (by omega)
      have sameLength := Buffer.write_length written
      have dropped : (length + totalLength (f :: rest)).toNat =
          length.toNat + f.segment.cells.length + (totalLength rest).toNat := by
        rw [totalLength_cons]
        omega
      rw [copyFragments, read]
      simp only [Option.bind_eq_bind, Option.bind_some, written]
      rw [wrapInt_of_bounds (by omega) (by omega), ih _ restOk (by omega) (by omega) (by omega),
        segments_cons, List.flatMap_cons, dropped]
      have prefixLength : (data.take length.toNat ++ f.segment.cells).length =
          (length + f.length).toNat := by
        rw [List.length_append, List.length_take]
        omega
      have shift : (length + f.length + totalLength rest).toNat =
          (data.take length.toNat ++ f.segment.cells).length + (totalLength rest).toNat := by
        rw [prefixLength]
        omega
      congr 1
      rw [List.take_left' prefixLength, shift, List.drop_append,
        List.drop_eq_nil_of_le (Nat.le_add_right _ _), Nat.add_sub_cancel_left, List.drop_drop]
      simp only [List.append_assoc, Nat.add_assoc, List.nil_append]

theorem copyFragments_room {fragments : List Fragment} {data after : List UInt8} {length : Int}
    (ok : ∀ f ∈ fragments, f.Ok) (inside : length ≤ data.length)
    (small : (data.length : Int) < 2 ^ 31) (nonnegative : 0 ≤ length)
    (copied : copyFragments fragments data length = some after) :
    length + totalLength fragments ≤ data.length := by
  induction fragments generalizing data length with
  | nil =>
      rw [totalLength_nil]
      omega
  | cons f rest ih =>
      have fLength := (ok f (by simp)).nonnegative
      rw [copyFragments] at copied
      cases read : Buffer.read f.data 0 f.length with
      | none => simp [read] at copied
      | some bytes =>
          cases written : Buffer.write data length bytes with
          | none => simp [read, written] at copied
          | some data' =>
              have bytesLength := Buffer.read_length read
              have bounds := Buffer.write_bounds written
              have same := Buffer.write_length written
              simp only [read, written, Option.bind_eq_bind, Option.bind_some] at copied
              rw [wrapInt_of_bounds (by omega) (by omega)] at copied
              have tail := ih (fun g member => ok g (by simp [member])) (by omega) (by omega)
                (by omega) copied
              rw [totalLength_cons]
              omega

/-! The map of an entry, and the length of its gap-free prefix. -/

/-- `get_cache_fragment` has at least two fragments to concatenate into `count` bytes. -/
def Defragments (entry : CacheEntry) (count : Int) : Prop :=
  (∃ first second rest, entry.frag = first :: second :: rest ∧ first.offset = 0 ∧
    second.offset = first.endOffset) ∧ Segment.IsGapFreePrefix entry.contents count

def DefragFits (memory : Allocator) (entry : CacheEntry) : Prop :=
  ∀ count, Defragments entry count →
    count < 2 ^ 31 ∨ memory.alloc (fragSize (wrapInt count)) = false

/-- What `get_cache_fragment` promises about the map and the fragment it returns. -/
structure Got (memory : Allocator) (context : CacheContext) (result : Option Fragment)
    (context' : CacheContext) : Prop where
  valid : EntryOk context'.entry
  enlarged : Enlarged context context' 0
  total : totalLength context'.entry.frag = totalLength context.entry.frag
  length : context'.entry.length = context.entry.length
  contents : ∀ position, context'.entry.contents position = context.entry.contents position
  head : ∀ f, result = some f → context'.entry.frag.head? = some f ∧ f.offset = 0
  gapFree : ∀ f, result = some f → Segment.IsGapFreePrefix context.entry.contents f.length ∨
    ∃ count, Defragments context.entry count ∧ memory.alloc (fragSize (wrapInt count)) = false

theorem Got.unchanged (memory : Allocator) {context : CacheContext} {result : Option Fragment}
    (valid : EntryOk context.entry)
    (head : ∀ f, result = some f → context.entry.frag.head? = some f ∧ f.offset = 0)
    (gapFree : ∀ f, result = some f → Segment.IsGapFreePrefix context.entry.contents f.length ∨
      ∃ count, Defragments context.entry count ∧ memory.alloc (fragSize (wrapInt count)) = false) :
    Got memory context result context :=
  ⟨valid, .refl context, rfl, rfl, fun _ => rfl, head, gapFree⟩

theorem isGapFreePrefix_unique {map : Int → Option UInt8} {count other : Int}
    (first : Segment.IsGapFreePrefix map count) (second : Segment.IsGapFreePrefix map other) :
    count = other := by
  obtain ⟨lower, filled, none⟩ := first
  obtain ⟨otherLower, otherFilled, otherNone⟩ := second
  rcases Int.lt_trichotomy count other with less | same | more
  · have defined := otherFilled count lower less
    simp [none] at defined
  · exact same
  · have defined := filled other otherLower more
    simp [otherNone] at defined

theorem isGapFreePrefix_of_contiguous {run rest : List Fragment} (ok : ∀ f ∈ run, f.Ok)
    (contiguous : Segment.Contiguous 0 (segments run))
    (beyond : ∀ f ∈ rest, totalLength run < f.offset) :
    Segment.IsGapFreePrefix (Segment.lookup (segments (run ++ rest))) (totalLength run) := by
  have stop : (Segment.joined 0 (segments run)).stop = totalLength run := by
    have length := cells_length ok
    simp only [Segment.stop, Segment.joined]
    omega
  refine ⟨totalLength_nonneg ok, ?_, ?_⟩
  · intro position lower upper
    rw [segments_append, Segment.lookup_append, Segment.lookup_contiguous contiguous]
    have defined : ((Segment.joined 0 (segments run)).cell position).isSome :=
      Segment.cell_isSome lower (by omega)
    obtain ⟨byte, found⟩ := Option.isSome_iff_exists.mp defined
    rw [found]
    rfl
  · rw [segments_append, Segment.lookup_append, Segment.lookup_contiguous contiguous,
      Segment.cell_of_stop_le (by omega), lookup_segments_of_lt_offset beyond]
    rfl

structure StartsWith (entry : CacheEntry) (first : Fragment) (run rest : List Fragment) :
    Prop where
  frag : entry.frag = first :: run ++ rest
  offset : first.offset = 0
  contiguous : Segment.Contiguous 0 (segments (first :: run))
  beyond : ∀ f ∈ rest, totalLength (first :: run) < f.offset

theorem StartsWith.isGapFreePrefix {entry : CacheEntry} {first : Fragment}
    {run rest : List Fragment} (valid : EntryOk entry) (starts : StartsWith entry first run rest) :
    Segment.IsGapFreePrefix entry.contents (totalLength (first :: run)) := by
  have whole := isGapFreePrefix_of_contiguous (fun f member => valid.ok f (by
    rw [starts.frag]
    exact List.mem_append_left rest member)) starts.contiguous starts.beyond
  rw [← starts.frag] at whole
  exact whole

theorem StartsWith.defragments {entry : CacheEntry} {first : Fragment} {run rest : List Fragment}
    (valid : EntryOk entry) (starts : StartsWith entry first run rest) (several : run ≠ []) :
    Defragments entry (totalLength (first :: run)) := by
  obtain ⟨second, others, rfl⟩ := List.exists_cons_of_ne_nil several
  refine ⟨⟨first, second, others ++ rest, ?_, starts.offset, ?_⟩, starts.isGapFreePrefix valid⟩
  · rw [starts.frag]
    rfl
  · have next := starts.contiguous.2.1
    rw [segment_stop (valid.ok first (by rw [starts.frag]; simp))] at next
    exact next

theorem StartsWith.end_le {entry : CacheEntry} {first : Fragment} {run rest : List Fragment}
    (valid : EntryOk entry) (starts : StartsWith entry first run rest) :
    totalLength (first :: run) ≤ entry.length := by
  have firstOk := valid.ok first (by rw [starts.frag]; simp)
  have runOk : ∀ f ∈ run, f.Ok := fun f member => valid.ok f (by rw [starts.frag]; simp [member])
  have bounded : ∀ f ∈ run, f.endOffset ≤ entry.length :=
    fun f member => valid.bounded f (by rw [starts.frag]; simp [member])
  have firstBound := valid.bounded first (by rw [starts.frag]; simp)
  have tail := starts.contiguous.2
  rw [segment_stop firstOk] at tail
  have firstEnd : first.endOffset = first.offset + first.length := rfl
  have start := starts.offset
  rw [totalLength_cons]
  have general : ∀ position, position ≤ entry.length →
      Segment.Contiguous position (segments run) → position + totalLength run ≤ entry.length := by
    clear starts tail
    induction run with
    | nil =>
        intro position bound _
        rw [totalLength_nil]
        omega
    | cons f rest ih =>
        intro position _ contiguous
        have fOk := runOk f (by simp)
        have begins := contiguous.1
        have onward := contiguous.2
        rw [segment_start] at begins
        rw [segment_stop fOk] at onward
        have later := ih (fun g member => runOk g (by simp [member]))
          (fun g member => bounded g (by simp [member])) f.endOffset (bounded f (by simp)) onward
        have fEnd : f.endOffset = f.offset + f.length := rfl
        rw [totalLength_cons]
        omega
  have whole := general first.endOffset firstBound tail
  omega

def concatenated (fragments : List Fragment) : Fragment where
  offset := 0
  length := totalLength fragments
  realLength := totalLength fragments
  data := (segments fragments).flatMap Segment.cells

theorem concatenated_ok {fragments : List Fragment} (ok : ∀ f ∈ fragments, f.Ok) :
    (concatenated fragments).Ok :=
  ⟨totalLength_nonneg ok, Int.le_refl _, (cells_length ok).symm⟩

theorem concatenated_endOffset (fragments : List Fragment) :
    (concatenated fragments).endOffset = totalLength fragments := Int.zero_add _

theorem concatenated_segment {fragments : List Fragment} (ok : ∀ f ∈ fragments, f.Ok) :
    (concatenated fragments).segment = Segment.joined 0 (segments fragments) := by
  have length := cells_length ok
  simp only [Fragment.segment, Segment.joined, concatenated]
  rw [List.take_of_length_le (by omega)]

theorem getCacheFragment_cases (memory : Allocator) {context : CacheContext}
    (valid : EntryOk context.entry) :
    (∃ result, getCacheFragment memory context = some (result, context) ∧
      Got memory context result context ∧ ∀ count, ¬Defragments context.entry count) ∨
    ∃ first run rest, StartsWith context.entry first run rest ∧ run ≠ [] ∧
      getCacheFragment memory context = defragment memory context first run rest := by
  cases list : context.entry.frag with
  | nil =>
      refine Or.inl ⟨none, by simp [getCacheFragment, list], .unchanged memory valid (by simp)
        (by simp), ?_⟩
      rintro count ⟨⟨first, second, rest, impossible, _⟩, _⟩
      rw [list] at impossible
      simp at impossible
  | cons first others =>
      by_cases start : first.offset = 0
      · have firstOk := valid.ok first (by rw [list]; simp)
        have ordered := valid.ordered
        rw [list] at ordered
        have firstEnd : first.endOffset = first.offset + first.length := rfl
        obtain ⟨run, rest, found, split, contiguous, beyond⟩ := adjacentFragments_spec firstOk
          (fun f member => valid.ok f (by rw [list]; simp [member])) ordered
        have starts : StartsWith context.entry first run rest := by
          refine ⟨by rw [list, split]; rfl, start, ⟨start, ?_⟩, ?_⟩
          · rw [segment_stop firstOk]
            exact contiguous
          · intro f member
            have far := beyond f member
            rw [totalLength_cons]
            omega
        by_cases alone : run = []
        · subst alone
          refine Or.inl ⟨some first, ?_, .unchanged memory valid ?_ ?_, ?_⟩
          · cases others with
            | nil => simp [getCacheFragment, list, start]
            | cons second others =>
                simp [getCacheFragment, list, start, found]
          · rintro f ⟨⟩
            exact ⟨by rw [list]; rfl, start⟩
          · rintro f ⟨⟩
            have prefixed := starts.isGapFreePrefix valid
            rw [totalLength_cons, totalLength_nil, Int.add_zero] at prefixed
            exact Or.inl prefixed
          · rintro count ⟨⟨_, second, rest', same, _, adjacent⟩, _⟩
            rw [list, List.cons.injEq] at same
            obtain ⟨rfl, rfl⟩ := same
            have far := beyond second (by rw [← List.nil_append rest, ← split]; simp)
            rw [totalLength_nil] at far
            omega
        · refine Or.inr ⟨first, run, rest, starts, alone, ?_⟩
          obtain ⟨second, more, rfl⟩ := List.exists_cons_of_ne_nil alone
          subst split
          rw [List.cons_append] at found
          simp only [getCacheFragment, list, start, found, List.cons_append, List.isEmpty_cons,
            Bool.false_eq_true, ↓reduceIte, ne_eq, not_true_eq_false]
      · refine Or.inl ⟨none, by simp [getCacheFragment, list, start],
          .unchanged memory valid (by simp) (by simp), ?_⟩
        rintro count ⟨⟨first', second, rest, same, startsAtZero, _⟩, _⟩
        rw [list, List.cons.injEq] at same
        exact start (same.1 ▸ startsAtZero)

theorem defragment_spec (memory : Allocator) {context : CacheContext} {first : Fragment}
    {run rest : List Fragment} (valid : EntryOk context.entry)
    (starts : StartsWith context.entry first run rest) (several : run ≠ [])
    (fits : totalLength (first :: run) < 2 ^ 31 ∨
      memory.alloc (fragSize (wrapInt (totalLength (first :: run)))) = false) :
    ∃ result context', defragment memory context first run rest = some (result, context') ∧
      Got memory context result context' := by
  have runOk : ∀ f ∈ first :: run, f.Ok := fun f member => valid.ok f (by
    rw [starts.frag]
    exact List.mem_append_left rest member)
  have total := totalLength_nonneg runOk
  cases granted : memory.alloc (fragSize (wrapInt (totalLength (first :: run)))) with
  | false =>
      refine ⟨if first.length ≠ 0 then some first else none, context, ?_,
        .unchanged memory valid ?_ ?_⟩
      · simp only [defragment, newFragLen_eq, fragAlloc, granted, Bool.false_eq_true, ↓reduceIte]
      · intro f returned
        split at returned
        · obtain rfl := Option.some.inj returned
          exact ⟨by rw [starts.frag]; rfl, starts.offset⟩
        · simp at returned
      · intro f _
        exact Or.inr ⟨_, starts.defragments valid several, granted⟩
  | true =>
      have small : totalLength (first :: run) < 2 ^ 31 := by
        rcases fits with small | refused
        · exact small
        · rw [granted] at refused
          exact absurd refused (by decide)
      have exactLength : wrapInt (totalLength (first :: run)) = totalLength (first :: run) :=
        wrapInt_of_bounds (by omega) small
      rw [exactLength] at granted
      have copied := copyFragments_spec (List.replicate (totalLength (first :: run)).toNat 0)
        runOk (Int.le_refl 0) (by rw [List.length_replicate]; omega)
        (by rw [List.length_replicate]; omega)
      rw [Int.toNat_zero, List.take_zero, List.nil_append, Int.zero_add, List.drop_replicate,
        Nat.sub_self, List.replicate_zero, List.append_nil] at copied
      have joinedOk := concatenated_ok runOk
      refine ⟨some (concatenated (first :: run)),
        context.setFrag (concatenated (first :: run) :: rest), ?_, ?_⟩
      · simp only [defragment, newFragLen_eq, exactLength, fragAlloc, granted, ↓reduceIte, copied,
          Option.bind_eq_bind, Option.bind_some, concatenated]
      · have frag := starts.frag
        have ordered := valid.ordered
        rw [frag] at ordered
        refine ⟨⟨?_, ?_, ?_⟩, (Enlarged.refl context).setFrag _, ?_, rfl, ?_, ?_, ?_⟩
        · intro f member
          rcases List.mem_cons.mp member with rfl | later
          · exact joinedOk
          · exact valid.ok f (by rw [frag]; simp [later])
        · refine List.pairwise_cons.mpr ⟨?_, (List.pairwise_append.mp ordered).2.1⟩
          intro f member
          have far := starts.beyond f member
          rw [concatenated_endOffset]
          omega
        · intro f member
          rw [setFrag_length]
          rcases List.mem_cons.mp member with rfl | later
          · rw [concatenated_endOffset]
            exact starts.end_le valid
          · exact valid.bounded f (by rw [frag]; simp [later])
        · rw [setFrag_frag, frag, totalLength_append, totalLength_cons]
          rfl
        · intro position
          rw [CacheEntry.contents, CacheEntry.contents, setFrag_frag, frag, segments_cons,
            segments_append, Segment.lookup_cons, Segment.lookup_append,
            Segment.lookup_contiguous starts.contiguous, concatenated_segment runOk]
        · rintro f ⟨⟩
          exact ⟨rfl, rfl⟩
        · rintro f ⟨⟩
          exact Or.inl (starts.isGapFreePrefix valid)

/-- Without room in an `int`, the copy leaves the block of the new fragment. -/
theorem defragment_fault (memory : Allocator) {context : CacheContext} {first : Fragment}
    {run rest : List Fragment} (valid : EntryOk context.entry)
    (starts : StartsWith context.entry first run rest)
    (large : 2 ^ 31 ≤ totalLength (first :: run))
    (granted : memory.alloc (fragSize (wrapInt (totalLength (first :: run)))) = true) :
    defragment memory context first run rest = none := by
  have runOk : ∀ f ∈ first :: run, f.Ok := fun f member => valid.ok f (by
    rw [starts.frag]
    exact List.mem_append_left rest member)
  have short := wrapInt_lt (totalLength (first :: run))
  simp only [defragment, newFragLen_eq, fragAlloc, granted, ↓reduceIte]
  cases copied : copyFragments (first :: run)
      (List.replicate (wrapInt (totalLength (first :: run))).toNat 0) 0 with
  | none => rfl
  | some data =>
      have room := copyFragments_room runOk (by rw [List.length_replicate]; omega)
        (by rw [List.length_replicate]; omega) (Int.le_refl 0) copied
      rw [List.length_replicate] at room
      omega

theorem getCacheFragment_spec (memory : Allocator) {context : CacheContext}
    (valid : EntryOk context.entry) (fits : DefragFits memory context.entry) :
    ∃ result context', getCacheFragment memory context = some (result, context') ∧
      Got memory context result context' := by
  rcases getCacheFragment_cases memory valid with ⟨result, found, got, _⟩ |
    ⟨first, run, rest, starts, several, found⟩
  · exact ⟨result, context, found, got⟩
  · rw [found]
    exact defragment_spec memory valid starts several
      (fits _ (starts.defragments valid several))

theorem getCacheFragment_fault (memory : Allocator) {context : CacheContext}
    (valid : EntryOk context.entry) (unfit : ¬DefragFits memory context.entry) :
    getCacheFragment memory context = none := by
  rcases getCacheFragment_cases memory valid with ⟨_, _, _, nothing⟩ |
    ⟨first, run, rest, starts, several, found⟩
  · exact absurd (fun count defragments => absurd defragments (nothing count)) unfit
  · rw [found]
    have large : ¬(totalLength (first :: run) < 2 ^ 31 ∨
        memory.alloc (fragSize (wrapInt (totalLength (first :: run)))) = false) := by
      intro fits
      apply unfit
      intro count other
      rwa [isGapFreePrefix_unique other.2 (starts.isGapFreePrefix valid)]
    rw [not_or, Int.not_lt, Bool.not_eq_false] at large
    exact defragment_fault memory valid starts large.1 large.2

/-- Two adjacent fragments at the start of the document, with a gap behind them. -/
theorem defragments_pair {entry : CacheEntry} {first second : Fragment} (valid : EntryOk entry)
    (frag : entry.frag = [first, second]) (start : first.offset = 0)
    (adjacent : second.offset = first.endOffset) :
    Defragments entry (first.length + second.length) := by
  have firstOk := valid.ok first (by rw [frag]; simp)
  have starts : StartsWith entry first [second] [] := by
    refine ⟨frag, start, ⟨start, ?_, trivial⟩, by simp⟩
    rw [segment_stop firstOk]
    exact adjacent
  have defragments := starts.defragments valid (by simp)
  rwa [totalLength_cons, totalLength_cons, totalLength_nil, Int.add_zero] at defragments

end KcnTools.Cache
