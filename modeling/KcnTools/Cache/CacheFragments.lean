import KcnTools.Cache.CacheCore
import Mathlib

/-! What the helpers of `cache.c` do to fragments that satisfy the list invariant:
the bytes they keep, the bounds they respect and the sizes they account for. -/

namespace KcnTools.Cache

def Fragment.endOffset (f : Fragment) : Int := f.offset + f.length

structure Fragment.Ok (f : Fragment) : Prop where
  nonnegative : 0 ≤ f.length
  fits : f.length ≤ f.realLength
  allocated : f.realLength = f.data.length

def Fragment.segment (f : Fragment) : Segment UInt8 := ⟨f.offset, f.data.take f.length.toNat⟩

def segments (fragments : List Fragment) : List (Segment UInt8) := fragments.map Fragment.segment

def totalLength (fragments : List Fragment) : Int := (fragments.map Fragment.length).sum

@[simp] theorem totalLength_nil : totalLength [] = 0 := rfl

@[simp] theorem totalLength_cons (f : Fragment) (rest : List Fragment) :
    totalLength (f :: rest) = f.length + totalLength rest := by
  simp [totalLength]

@[simp] theorem totalLength_append (first second : List Fragment) :
    totalLength (first ++ second) = totalLength first + totalLength second := by
  simp [totalLength]

theorem totalLength_nonneg {fragments : List Fragment} (ok : ∀ f ∈ fragments, f.Ok) :
    0 ≤ totalLength fragments := by
  induction fragments with
  | nil => simp
  | cons f rest ih =>
      have head := (ok f (by simp)).nonnegative
      have tail := ih fun g member => ok g (by simp [member])
      simp only [totalLength_cons]
      omega

@[simp] theorem segment_start (f : Fragment) : f.segment.start = f.offset := rfl

theorem segment_stop {f : Fragment} (ok : f.Ok) : f.segment.stop = f.endOffset := by
  have nonnegative := ok.nonnegative
  have fits := ok.fits
  have allocated := ok.allocated
  simp only [Segment.stop, Fragment.segment, Fragment.endOffset, List.length_take]
  omega

theorem segment_cell {f : Fragment} {position : Int}
    (lower : f.offset ≤ position) (upper : position < f.endOffset) :
    f.segment.cell position = f.data[(position - f.offset).toNat]? := by
  rw [Fragment.endOffset] at upper
  rw [Segment.cell, segment_start, if_pos lower, Fragment.segment,
    List.getElem?_take_of_lt (by omega)]

theorem segment_cell_of_endOffset_le {f : Fragment} (ok : f.Ok) {position : Int}
    (after : f.endOffset ≤ position) : f.segment.cell position = none :=
  Segment.cell_of_stop_le (by rw [segment_stop ok]; exact after)

theorem lookup_segments_of_endOffset_le {fragments : List Fragment}
    (ok : ∀ f ∈ fragments, f.Ok) (position : Int) (after : ∀ f ∈ fragments, f.endOffset ≤ position) :
    Segment.lookup (segments fragments) position = none := by
  apply Segment.lookup_of_stop_le
  intro segment member
  obtain ⟨f, inside, rfl⟩ := List.mem_map.mp member
  rw [segment_stop (ok f inside)]
  exact after f inside

theorem lookup_segments_of_lt_offset {fragments : List Fragment} {position : Int}
    (before : ∀ f ∈ fragments, position < f.offset) :
    Segment.lookup (segments fragments) position = none := by
  apply Segment.lookup_of_lt_start
  intro segment member
  obtain ⟨f, inside, rfl⟩ := List.mem_map.mp member
  exact before f inside

@[simp] theorem segments_nil : segments [] = [] := rfl

@[simp] theorem segments_cons (f : Fragment) (rest : List Fragment) :
    segments (f :: rest) = f.segment :: segments rest := rfl

@[simp] theorem segments_append (first second : List Fragment) :
    segments (first ++ second) = segments first ++ segments second := by
  simp [segments]

/-! Accounting: the entry's size and the cache's size move together. -/

structure Enlarged (context after : CacheContext) (size : Int) : Prop where
  dataSize : after.entry.dataSize = context.entry.dataSize + size
  cacheSize : after.cacheSize = context.cacheSize + size

theorem Enlarged.refl (context : CacheContext) : Enlarged context context 0 := by
  constructor <;> simp

theorem Enlarged.trans {first second third : CacheContext} {size more : Int}
    (step : Enlarged first second size) (rest : Enlarged second third more) :
    Enlarged first third (size + more) := by
  constructor
  · rw [rest.dataSize, step.dataSize, Int.add_assoc]
  · rw [rest.cacheSize, step.cacheSize, Int.add_assoc]

theorem enlargeEntry_enlarged (context : CacheContext) (size : Int)
    (enough : 0 ≤ context.entry.dataSize + size) :
    Enlarged context (enlargeEntry context size) size := by
  constructor
  · simp only [enlargeEntry]
    rw [if_neg (by omega)]
  · rfl

structure SizesOnly (context after : CacheContext) : Prop where
  frag : after.entry.frag = context.entry.frag
  length : after.entry.length = context.entry.length
  idCounter : after.idCounter = context.idCounter

theorem SizesOnly.refl (context : CacheContext) : SizesOnly context context := ⟨rfl, rfl, rfl⟩

theorem SizesOnly.trans {first second third : CacheContext} (step : SizesOnly first second)
    (rest : SizesOnly second third) : SizesOnly first third :=
  ⟨rest.frag.trans step.frag, rest.length.trans step.length, rest.idCounter.trans step.idCounter⟩

theorem enlargeEntry_sizesOnly (context : CacheContext) (size : Int) :
    SizesOnly context (enlargeEntry context size) := ⟨rfl, rfl, rfl⟩

theorem deleteFragment_enlarged (context : CacheContext) {fragments : List Fragment}
    (ok : ∀ f ∈ fragments, f.Ok) (enough : totalLength fragments ≤ context.entry.dataSize) :
    Enlarged context (deleteFragment context fragments) (-totalLength fragments) := by
  induction fragments generalizing context with
  | nil => exact Enlarged.refl context
  | cons f rest ih =>
      simp only [totalLength_cons] at enough ⊢
      have tail := totalLength_nonneg fun g member => ok g (List.mem_cons_of_mem f member)
      have first : Enlarged context (enlargeEntry context (-f.length)) (-f.length) :=
        enlargeEntry_enlarged _ _ (by omega)
      have size := first.dataSize
      have others := ih (enlargeEntry context (-f.length))
        (fun g member => ok g (List.mem_cons_of_mem f member)) (by omega)
      have whole := first.trans others
      rw [show -(f.length + totalLength rest) = -f.length + -totalLength rest by omega]
      exact whole

theorem deleteFragment_sizesOnly (context : CacheContext) (fragments : List Fragment) :
    SizesOnly context (deleteFragment context fragments) := by
  induction fragments generalizing context with
  | nil => exact SizesOnly.refl context
  | cons f rest ih => exact (enlargeEntry_sizesOnly context (-f.length)).trans (ih _)

/-! The merge of `remove_overlaps`. -/

/-- `merged` holds the cells of `f`, and from the end of `f` on those of `next`. -/
structure Merges (f next merged : Fragment) : Prop where
  ok : merged.Ok
  offset : merged.offset = f.offset
  endOffset : merged.endOffset = next.endOffset
  kept : ∀ position, position < f.endOffset →
    merged.segment.cell position = f.segment.cell position
  taken : ∀ position, f.endOffset ≤ position →
    merged.segment.cell position = next.segment.cell position

theorem merges_of_write {f next : Fragment} (fOk : f.Ok) (nextOk : next.Ok)
    (starts : f.offset ≤ next.offset) (overlaps : next.offset ≤ f.endOffset)
    (longer : f.endOffset < next.endOffset) {tail data : List UInt8}
    (read : Buffer.read next.data (f.endOffset - next.offset) (next.endOffset - f.endOffset) =
      some tail)
    (written : Buffer.write (Buffer.resize 0 f.data (next.endOffset - f.offset).toNat) f.length
      tail = some data) :
    Merges f next { f with
      length := next.endOffset - f.offset, realLength := next.endOffset - f.offset, data } := by
  have fLength := fOk.nonnegative
  have fFits := fOk.fits
  have fAllocated := fOk.allocated
  have tailLength := Buffer.read_length read
  have dataLength : data.length = (next.endOffset - f.offset).toNat := by
    rw [Buffer.write_length written, Buffer.resize_length]
  have fEnd : f.endOffset = f.offset + f.length := rfl
  have nextEnd : next.endOffset = next.offset + next.length := rfl
  refine ⟨⟨?_, ?_, ?_⟩, rfl, ?_, ?_, ?_⟩
  · show 0 ≤ next.endOffset - f.offset
    omega
  · exact Int.le_refl _
  · show next.endOffset - f.offset = data.length
    omega
  · simp only [Fragment.endOffset]
    omega
  · intro position before
    by_cases lower : f.offset ≤ position
    · rw [segment_cell lower before, segment_cell (by exact lower)
        (by simp only [Fragment.endOffset] at before longer ⊢; omega),
        Buffer.write_getElem? written, if_neg (by simp only; omega),
        Buffer.resize_getElem? _ _ (by simp only; omega) (by simp only; omega)]
    · rw [Segment.cell_of_lt_start (by simp only [segment_start]; omega),
        Segment.cell_of_lt_start (by simp only [segment_start]; omega)]
  · intro position after
    by_cases upper : position < next.endOffset
    · rw [segment_cell (f := next) (by omega) upper,
        segment_cell (by show f.offset ≤ position; omega)
        (by simp only [Fragment.endOffset] at upper ⊢; omega),
        Buffer.write_getElem? written, if_pos (by simp only; omega),
        Buffer.read_getElem? read, if_pos (by simp only; omega)]
      congr 1
      simp only
      omega
    · rw [segment_cell_of_endOffset_le nextOk (by omega)]
      apply Segment.cell_of_stop_le
      simp only [Segment.stop, Fragment.segment, List.length_take]
      omega

/-- The three outcomes of one turn: a merge, a drop for want of memory, a drop of a
fragment that the new data covers. None of them leaves the blocks. -/
theorem removeOverlap_cases (memory : Allocator) (context : CacheContext) {f next : Fragment}
    (trunc : Bool) (fOk : f.Ok) (nextOk : next.Ok) (starts : f.offset ≤ next.offset)
    (overlaps : next.offset ≤ f.endOffset) :
    ∃ trunc', (f.endOffset < next.endOffset ∧ ∃ merged, Merges f next merged ∧
        removeOverlap memory f.endOffset context f next trunc = some
          (enlargeEntry (enlargeEntry context (next.endOffset - f.endOffset)) (-next.length),
            merged, trunc')) ∨
      removeOverlap memory f.endOffset context f next trunc =
        some (enlargeEntry context (-next.length), f, trunc') := by
  have fLength := fOk.nonnegative
  have fFits := fOk.fits
  have fAllocated := fOk.allocated
  have nextLength := nextOk.nonnegative
  have nextFits := nextOk.fits
  have nextAllocated := nextOk.allocated
  have fEnd : f.endOffset = f.offset + f.length := rfl
  have nextEnd : next.endOffset = next.offset + next.length := rfl
  by_cases longer : f.endOffset < next.endOffset
  · by_cases granted : memory.realloc (fragSize f.realLength)
        (fragSize (next.endOffset - f.offset)) = true
    · obtain ⟨mine, mineRead⟩ := Buffer.read_exists
        (Buffer.resize 0 f.data (next.endOffset - f.offset).toNat)
        (next.offset - f.offset) (f.endOffset - next.offset)
        (by omega) (by omega) (by rw [Buffer.resize_length]; omega)
      obtain ⟨theirs, theirsRead⟩ := Buffer.read_exists next.data 0
        (f.endOffset - next.offset) (by omega) (by omega) (by omega)
      obtain ⟨tail, tailRead⟩ := Buffer.read_exists next.data
        (f.endOffset - next.offset) (next.endOffset - f.endOffset)
        (by omega) (by omega) (by omega)
      have tailLength := Buffer.read_length tailRead
      obtain ⟨data, written⟩ := Buffer.write_exists
        (Buffer.resize 0 f.data (next.endOffset - f.offset).toNat) f.length tail (by omega)
        (by rw [Buffer.resize_length]; omega)
      refine ⟨trunc || mine != theirs, Or.inl ⟨longer, _,
        merges_of_write fOk nextOk starts overlaps longer tailRead written, ?_⟩⟩
      simp only [removeOverlap, fragRealloc, ← nextEnd, longer, granted, ↓reduceIte, ← fEnd,
        mineRead, theirsRead, tailRead, written, Option.bind_eq_bind, Option.bind_some]
    · refine ⟨trunc, Or.inr ?_⟩
      simp [removeOverlap, fragRealloc, ← nextEnd, longer, granted]
  · obtain ⟨mine, mineRead⟩ := Buffer.read_exists f.data
      (next.offset - f.offset) next.length (by omega) (by omega) (by omega)
    obtain ⟨theirs, theirsRead⟩ := Buffer.read_exists next.data 0 next.length
      (by omega) (by omega) (by omega)
    refine ⟨trunc || mine != theirs, Or.inr ?_⟩
    simp only [removeOverlap, ← nextEnd, longer, ↓reduceIte, mineRead, theirsRead,
      Option.bind_eq_bind, Option.bind_some]

theorem removeOverlaps_of_le (memory : Allocator) (context : CacheContext) (f : Fragment)
    (trunc : Bool) {fEndOffset : Int} {after : List Fragment}
    (apart : ∀ next ∈ after, fEndOffset ≤ next.offset) :
    removeOverlaps memory fEndOffset context f after trunc = some (context, f, after, trunc) := by
  cases after with
  | nil => rfl
  | cons next rest =>
      have first := apart next (by simp)
      rw [removeOverlaps, if_neg (by omega)]

/-- What `remove_overlaps` leaves of `f` and of the fragments `after` it. -/
structure OverlapsRemoved (context : CacheContext) (f : Fragment) (after : List Fragment)
    (context' : CacheContext) (f' : Fragment) (after' : List Fragment) : Prop where
  ok : f'.Ok
  offset : f'.offset = f.offset
  covers : f.endOffset ≤ f'.endOffset
  suffix : after' <:+ after
  apart : ∀ next ∈ after', f'.endOffset ≤ next.offset
  bounded : f'.endOffset = f.endOffset ∨ ∃ next ∈ after, f'.endOffset = next.endOffset
  sizesOnly : SizesOnly context context'
  enlarged : f.length + totalLength after ≤ context.entry.dataSize →
    Enlarged context context'
      (f'.length + totalLength after' - (f.length + totalLength after))
  kept : ∀ position, position < f.endOffset →
    f'.segment.cell position = f.segment.cell position
  later : ∀ position, f.endOffset ≤ position →
    Segment.lookup (segments (f' :: after')) position = none ∨
      Segment.lookup (segments (f' :: after')) position =
        Segment.lookup (segments after) position

theorem OverlapsRemoved.none {context : CacheContext} {f : Fragment} {after : List Fragment}
    (ok : f.Ok) (apart : ∀ next ∈ after, f.endOffset ≤ next.offset) :
    OverlapsRemoved context f after context f after where
  ok := ok
  offset := rfl
  covers := Int.le_refl _
  suffix := List.suffix_rfl
  apart := apart
  bounded := Or.inl rfl
  sizesOnly := SizesOnly.refl context
  enlarged := fun _ => by simpa using Enlarged.refl context
  kept := fun _ _ => rfl
  later := fun position beyond => Or.inr (by
    rw [segments_cons, Segment.lookup_cons, segment_cell_of_endOffset_le ok beyond,
      Option.none_or])

theorem OverlapsRemoved.drop {context context' : CacheContext} {f f' next : Fragment}
    {rest after' : List Fragment} (nextOk : next.Ok) (restOk : ∀ g ∈ rest, g.Ok) (fOk : f.Ok)
    (apart : ∀ g ∈ rest, next.endOffset ≤ g.offset)
    (removed : OverlapsRemoved (enlargeEntry context (-next.length)) f rest context' f' after') :
    OverlapsRemoved context f (next :: rest) context' f' after' where
  ok := removed.ok
  offset := removed.offset
  covers := removed.covers
  suffix := removed.suffix.trans (List.suffix_cons next rest)
  apart := removed.apart
  bounded := removed.bounded.imp_right fun ⟨g, member, same⟩ => ⟨g, by simp [member], same⟩
  sizesOnly := (enlargeEntry_sizesOnly context _).trans removed.sizesOnly
  enlarged := fun enough => by
    have nextLength := nextOk.nonnegative
    have fLength := fOk.nonnegative
    have restLength := totalLength_nonneg restOk
    rw [totalLength_cons] at enough ⊢
    have first : Enlarged context (enlargeEntry context (-next.length)) (-next.length) :=
      enlargeEntry_enlarged _ _ (by omega)
    have size := first.dataSize
    have whole := first.trans (removed.enlarged (by omega))
    rwa [show f'.length + totalLength after' - (f.length + (next.length + totalLength rest)) =
      -next.length + (f'.length + totalLength after' - (f.length + totalLength rest)) by omega]
  kept := removed.kept
  later := fun position beyond => by
    rcases removed.later position beyond with undefined | same
    · exact Or.inl undefined
    · rw [same, segments_cons, Segment.lookup_cons]
      by_cases inside : next.endOffset ≤ position
      · rw [segment_cell_of_endOffset_le nextOk inside, Option.none_or]
        exact Or.inr rfl
      · left
        apply lookup_segments_of_lt_offset
        intro g member
        have later := apart g member
        omega

theorem OverlapsRemoved.merge {context : CacheContext} {f next merged : Fragment}
    {rest : List Fragment} (fOk : f.Ok) (nextOk : next.Ok) (restOk : ∀ g ∈ rest, g.Ok)
    (overlaps : next.offset ≤ f.endOffset) (longer : f.endOffset < next.endOffset)
    (merges : Merges f next merged) (apart : ∀ g ∈ rest, next.endOffset ≤ g.offset) :
    OverlapsRemoved context f (next :: rest)
      (enlargeEntry (enlargeEntry context (next.endOffset - f.endOffset)) (-next.length))
      merged rest where
  ok := merges.ok
  offset := merges.offset
  covers := by rw [merges.endOffset]; omega
  suffix := List.suffix_cons next rest
  apart := by rw [merges.endOffset]; exact apart
  bounded := Or.inr ⟨next, by simp, merges.endOffset⟩
  sizesOnly := (enlargeEntry_sizesOnly context _).trans (enlargeEntry_sizesOnly _ _)
  enlarged := fun enough => by
    have nextLength := nextOk.nonnegative
    have fLength := fOk.nonnegative
    have restLength := totalLength_nonneg restOk
    have mergedEnd := merges.endOffset
    have mergedStart := merges.offset
    rw [totalLength_cons] at enough ⊢
    simp only [Fragment.endOffset] at *
    have first : Enlarged context (enlargeEntry context
        (next.offset + next.length - (f.offset + f.length)))
        (next.offset + next.length - (f.offset + f.length)) := enlargeEntry_enlarged _ _ (by omega)
    have size := first.dataSize
    have second := first.trans (enlargeEntry_enlarged _ (-next.length) (by omega))
    rwa [show merged.length + totalLength rest - (f.length + (next.length + totalLength rest)) =
      next.offset + next.length - (f.offset + f.length) + -next.length by omega]
  kept := merges.kept
  later := fun position beyond => Or.inr (by
    rw [segments_cons, segments_cons, Segment.lookup_cons, Segment.lookup_cons,
      merges.taken position beyond])

theorem removeOverlaps_spec (memory : Allocator) (context : CacheContext) {f : Fragment}
    {after : List Fragment} (trunc : Bool) (fOk : f.Ok) (afterOk : ∀ g ∈ after, g.Ok)
    (starts : ∀ g ∈ after, f.offset ≤ g.offset)
    (ordered : after.Pairwise fun g h => g.endOffset ≤ h.offset) :
    ∃ context' f' after' trunc',
      removeOverlaps memory f.endOffset context f after trunc =
        some (context', f', after', trunc') ∧
      OverlapsRemoved context f after context' f' after' := by
  induction after generalizing context trunc with
  | nil => exact ⟨context, f, [], trunc, rfl, .none fOk (by simp)⟩
  | cons next rest ih =>
      have nextOk := afterOk next (by simp)
      have restOk : ∀ g ∈ rest, g.Ok := fun g member => afterOk g (by simp [member])
      obtain ⟨apart, restOrdered⟩ := List.pairwise_cons.mp ordered
      have nextLength := nextOk.nonnegative
      by_cases overlaps : f.endOffset > next.offset
      · obtain ⟨trunc', merged | dropped⟩ := removeOverlap_cases memory context trunc fOk nextOk
          (starts next (by simp)) (by omega)
        · obtain ⟨longer, whole, merges, removed⟩ := merged
          refine ⟨_, whole, rest, trunc', ?_,
            .merge fOk nextOk restOk (by omega) longer merges apart⟩
          rw [removeOverlaps, if_pos overlaps, removed]
          apply removeOverlaps_of_le
          intro g member
          have beyond := apart g member
          omega
        · obtain ⟨context', f', after', trunc'', removed, spec⟩ :=
            ih (enlargeEntry context (-next.length)) trunc' restOk
              (fun g member => starts g (by simp [member])) restOrdered
          refine ⟨context', f', after', trunc'', ?_, .drop nextOk restOk fOk apart spec⟩
          rw [removeOverlaps, if_pos overlaps, dropped]
          exact removed
      · refine ⟨context, f, next :: rest, trunc, ?_, .none fOk ?_⟩
        · rw [removeOverlaps, if_neg overlaps]
        · intro g member
          rcases List.mem_cons.mp member with rfl | later
          · omega
          · have beyond := apart g later
            simp only [Fragment.endOffset] at *
            omega

/-! Truncation. -/

structure Truncated (offset : Int) (context : CacheContext) (fragments : List Fragment)
    (context' : CacheContext) (fragments' : List Fragment) : Prop where
  ok : ∀ f ∈ fragments', f.Ok
  ordered : fragments'.Pairwise fun f g => f.endOffset ≤ g.offset
  within : ∀ f ∈ fragments', f.endOffset ≤ offset
  origin : ∀ f ∈ fragments', ∃ g ∈ fragments, f.offset = g.offset ∧ f.endOffset ≤ g.endOffset
  sizesOnly : SizesOnly context context'
  enlarged : totalLength fragments ≤ context.entry.dataSize →
    Enlarged context context' (totalLength fragments' - totalLength fragments)
  lookup : ∀ position, Segment.lookup (segments fragments') position =
    if position < offset then Segment.lookup (segments fragments) position else none

theorem truncateFragment_spec (memory : Allocator) {f : Fragment} {size : Int} (final : Bool)
    (ok : f.Ok) (positive : 0 < size) (shorter : size < f.length) :
    (truncateFragment memory f size final).Ok ∧
      (truncateFragment memory f size final).offset = f.offset ∧
      (truncateFragment memory f size final).length = size ∧
      ∀ position, position < f.offset + size →
        (truncateFragment memory f size final).segment.cell position =
          f.segment.cell position := by
  have fits := ok.fits
  have allocated := ok.allocated
  have plain : Fragment.Ok { f with length := size } :=
    ⟨by simp only; omega, by simp only; omega, allocated⟩
  have same : ∀ position, position < f.offset + size →
      (Fragment.segment { f with length := size }).cell position = f.segment.cell position := by
    intro position before
    by_cases lower : f.offset ≤ position
    · rw [segment_cell (f := f) lower (by simp only [Fragment.endOffset]; omega),
        segment_cell (f := { f with length := size }) lower
          (by simp only [Fragment.endOffset]; omega)]
    · rw [Segment.cell_of_lt_start (by simp only [segment_start]; omega),
        Segment.cell_of_lt_start (by simp only [segment_start]; omega)]
  cases final with
  | false => exact ⟨plain, rfl, rfl, same⟩
  | true =>
      cases granted : memory.realloc (fragSize f.realLength) (fragSize size) with
      | false =>
          simp only [truncateFragment, fragRealloc, granted, Bool.false_eq_true, ↓reduceIte]
          exact ⟨plain, trivial, trivial, same⟩
      | true =>
          simp only [truncateFragment, fragRealloc, granted, ↓reduceIte]
          refine ⟨⟨by simp only; omega, Int.le_refl _, ?_⟩, trivial, trivial, ?_⟩
          · simp only [Buffer.resize_length]
            omega
          · intro position before
            rw [← same position before]
            by_cases lower : f.offset ≤ position
            · rw [segment_cell (f := { f with length := size }) lower
                  (by simp only [Fragment.endOffset]; omega),
                segment_cell (by exact lower) (by simp only [Fragment.endOffset]; omega),
                Buffer.resize_getElem? _ _ (by simp only; omega) (by simp only; omega)]
            · rw [Segment.cell_of_lt_start (by simp only [segment_start]; omega),
                Segment.cell_of_lt_start (by simp only [segment_start]; omega)]

theorem truncateFragments_spec (memory : Allocator) (offset : Int) (final : Bool)
    (context : CacheContext) {fragments : List Fragment} (ok : ∀ f ∈ fragments, f.Ok)
    (ordered : fragments.Pairwise fun f g => f.endOffset ≤ g.offset) :
    Truncated offset context fragments
      (truncateFragments memory offset final context fragments).1
      (truncateFragments memory offset final context fragments).2 := by
  induction fragments generalizing context with
  | nil =>
      exact ⟨by simp [truncateFragments], by simp [truncateFragments],
        by simp [truncateFragments], by simp [truncateFragments], .refl context,
        fun _ => by simpa [truncateFragments] using Enlarged.refl context,
        by simp [truncateFragments]⟩
  | cons f rest ih =>
      have fOk := ok f (by simp)
      have restOk : ∀ g ∈ rest, g.Ok := fun g member => ok g (by simp [member])
      obtain ⟨apart, restOrdered⟩ := List.pairwise_cons.mp ordered
      have fLength := fOk.nonnegative
      have restLength := totalLength_nonneg restOk
      have fEnd : f.endOffset = f.offset + f.length := rfl
      have beyond : offset < f.endOffset → ∀ position, position < offset →
          Segment.lookup (segments rest) position = none := by
        intro cut position before
        apply lookup_segments_of_lt_offset
        intro g member
        have starts := apart g member
        omega
      by_cases whole : offset - f.offset ≥ f.length
      · have tail := ih context restOk restOrdered
        simp only [truncateFragments, if_pos whole]
        refine ⟨?_, ?_, ?_, ?_, tail.sizesOnly, ?_, ?_⟩
        · intro g member
          rcases List.mem_cons.mp member with rfl | later
          · exact fOk
          · exact tail.ok g later
        · refine List.pairwise_cons.mpr ⟨?_, tail.ordered⟩
          intro g member
          obtain ⟨h, origin, start, _⟩ := tail.origin g member
          rw [start]
          exact apart h origin
        · intro g member
          rcases List.mem_cons.mp member with rfl | later
          · omega
          · exact tail.within g later
        · intro g member
          rcases List.mem_cons.mp member with rfl | later
          · exact ⟨g, by simp, rfl, Int.le_refl _⟩
          · obtain ⟨h, origin, bounds⟩ := tail.origin g later
            exact ⟨h, by simp [origin], bounds⟩
        · intro enough
          rw [totalLength_cons] at enough
          rw [totalLength_cons, totalLength_cons]
          have rest := tail.enlarged (by omega)
          rwa [Int.add_sub_add_left]
        · intro position
          rw [segments_cons, segments_cons, Segment.lookup_cons, Segment.lookup_cons,
            tail.lookup]
          by_cases before : position < offset
          · rw [if_pos before, if_pos before]
          · rw [if_neg before, if_neg before, segment_cell_of_endOffset_le fOk (by omega)]
            rfl
      · by_cases positive : offset - f.offset > 0
        · obtain ⟨gOk, gOffset, gLength, gCells⟩ :=
            truncateFragment_spec memory final fOk positive (by omega)
          simp only [truncateFragments, if_neg whole, if_pos positive]
          generalize truncateFragment memory f (offset - f.offset) final = g at *
          have gEnd : g.endOffset = offset := by
            rw [Fragment.endOffset, gOffset, gLength]
            omega
          refine ⟨?_, ?_, ?_, ?_, ?_, ?_, ?_⟩
          · intro h member
            rw [List.mem_singleton.mp member]
            exact gOk
          · exact List.pairwise_singleton _ _
          · intro h member
            rw [List.mem_singleton.mp member]
            omega
          · intro h member
            rw [List.mem_singleton.mp member]
            exact ⟨f, by simp, gOffset, by omega⟩
          · exact (enlargeEntry_sizesOnly _ _).trans (deleteFragment_sizesOnly _ _)
          · intro enough
            rw [totalLength_cons] at enough
            have first : Enlarged context
                (enlargeEntry context (-(f.length - (offset - f.offset))))
                (-(f.length - (offset - f.offset))) := enlargeEntry_enlarged _ _ (by omega)
            have size := first.dataSize
            have both := first.trans (deleteFragment_enlarged _ restOk (by omega))
            rw [totalLength_cons, totalLength_cons, totalLength_nil]
            rwa [show g.length + 0 - (f.length + totalLength rest) =
              -(f.length - (offset - f.offset)) + -totalLength rest by omega]
          · intro position
            rw [segments_cons, segments_cons, Segment.lookup_cons, Segment.lookup_cons]
            by_cases before : position < offset
            · rw [if_pos before, gCells position (by omega), beyond (by omega) position before]
              rfl
            · rw [if_neg before, segment_cell_of_endOffset_le gOk (by omega)]
              rfl
        · simp only [truncateFragments, if_neg whole, if_neg positive]
          refine ⟨by simp, by simp, by simp, by simp, deleteFragment_sizesOnly _ _, ?_, ?_⟩
          · intro enough
            have deleted := deleteFragment_enlarged context ok enough
            rwa [totalLength_nil, Int.zero_sub]
          · intro position
            rw [segments_nil, Segment.lookup_nil, segments_cons, Segment.lookup_cons]
            by_cases before : position < offset
            · rw [if_pos before, beyond (by omega) position before,
                Segment.cell_of_lt_start (by simp only [segment_start]; omega)]
              rfl
            · rw [if_neg before]

end KcnTools.Cache
