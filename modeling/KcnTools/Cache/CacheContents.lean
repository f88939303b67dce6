import KcnTools.Cache.CacheRuns
import Mathlib

/-! Reading what was written: an entry as the partial map from byte positions to
bytes, before and after `add_fragment` and `get_cache_fragment`. -/

namespace KcnTools.Cache

/-- The new map has the data at its place and the old bytes below it; behind it, it may
only have lost bytes. -/
structure WritesContents (old : CacheEntry) (offset : Int) (data : List UInt8) (ret : Int)
    (entry : CacheEntry) : Prop where
  written : ret ≠ -1 → ∀ index : Nat, index < data.length →
    entry.contents (offset + index) = data[index]?
  before : ∀ position, position < offset → entry.contents position = old.contents position
  after : ret ≠ -1 → ∀ position, offset + data.length ≤ position →
    entry.contents position = none ∨ entry.contents position = old.contents position

structure ReadAfterWrite (memory : Allocator) (context : CacheContext) (offset : Int)
    (data : List UInt8) : Prop where
  add : ∃ ret context', addFragment memory context offset data = some (ret, context') ∧
    WritesContents context.entry offset data ret context'.entry
  get : ∃ result context', getCacheFragment memory context = some (result, context') ∧
    (∀ position, context'.entry.contents position = context.entry.contents position) ∧
    ∀ f, result = some f → f.offset = 0 ∧
      (∀ position, 0 ≤ position → position < f.length →
        f.data[position.toNat]? = context.entry.contents position) ∧
      (Segment.IsGapFreePrefix context.entry.contents f.length ∨
        ∃ count, Defragments context.entry count ∧
          memory.alloc (fragSize (wrapInt count)) = false)

theorem Got.reads {memory : Allocator} {context context' : CacheContext}
    {result : Option Fragment} (got : Got memory context result context') {f : Fragment}
    (returned : result = some f) {position : Int} (lower : 0 ≤ position)
    (upper : position < f.length) :
    f.data[position.toNat]? = context.entry.contents position := by
  obtain ⟨head, start⟩ := got.head f returned
  obtain ⟨rest, list⟩ := List.head?_eq_some_iff.mp head
  have fOk := got.valid.ok f (by rw [list]; simp)
  have fEnd : f.endOffset = f.offset + f.length := rfl
  have defined : (f.segment.cell position).isSome :=
    Segment.cell_isSome (by rw [segment_start]; omega) (by rw [segment_stop fOk]; omega)
  obtain ⟨byte, found⟩ := Option.isSome_iff_exists.mp defined
  rw [← got.contents, CacheEntry.contents, list, segments_cons, Segment.lookup_cons, found,
    Option.some_or, ← found, segment_cell (by omega) (by omega), start, Int.sub_zero]

/-- An entry reads back what was written to it exactly when `get_cache_fragment` has no
run of fragments whose length an `int` does not hold. -/
theorem readAfterWrite_iff (memory : Allocator) (context : CacheContext) (offset : Int)
    (data : List UInt8) (valid : EntryOk context.entry) :
    ReadAfterWrite memory context offset data ↔ DefragFits memory context.entry := by
  constructor
  · intro holds
    obtain ⟨result, context', found, _⟩ := holds.get
    by_contra unfit
    rw [getCacheFragment_fault memory valid unfit] at found
    exact absurd found (by simp)
  · intro fits
    obtain ⟨ret, context', added, spec⟩ := addFragment_spec memory offset data valid
    obtain ⟨result, after, found, got⟩ := getCacheFragment_spec memory valid fits
    refine ⟨⟨ret, context', added, spec.written, spec.before, spec.after⟩,
      ⟨result, after, found, got.contents, ?_⟩⟩
    intro f returned
    exact ⟨(got.head f returned).2, fun position lower upper => got.reads returned lower upper,
      got.gapFree f returned⟩

def halves (half : List UInt8) : CacheEntry :=
  { emptyEntry 0 with
    frag := [⟨0, half.length, half.length, half⟩, ⟨half.length, half.length, half.length, half⟩]
    length := half.length + half.length
    dataSize := half.length + half.length }

theorem halves_ok (half : List UInt8) : EntryOk (halves half) := by
  have ok : ∀ offset : Int, Fragment.Ok ⟨offset, half.length, half.length, half⟩ :=
    fun _ => ⟨by simp only; omega, Int.le_refl _, rfl⟩
  refine ⟨?_, ?_, ?_⟩
  · intro f member
    rcases List.mem_cons.mp member with rfl | later
    · exact ok 0
    · rw [List.mem_singleton.mp later]
      exact ok half.length
  · refine List.pairwise_cons.mpr ⟨?_, List.pairwise_singleton _ _⟩
    intro f member
    rw [List.mem_singleton.mp member]
    simp only [Fragment.endOffset]
    omega
  · intro f member
    simp only [halves]
    rcases List.mem_cons.mp member with rfl | later
    · simp only [Fragment.endOffset]
      omega
    · rw [List.mem_singleton.mp later]
      simp only [Fragment.endOffset]
      omega

/-- Bytes over the middle of two fragments and behind them -/
theorem readAfterWrite_iff_twoHalves :
    ReadAfterWrite generousAllocator ⟨halves [7, 8], 4, 1⟩ 1 [1, 2, 3, 4] := by
  refine (readAfterWrite_iff generousAllocator ⟨halves [7, 8], 4, 1⟩ 1 [1, 2, 3, 4] (halves_ok [7, 8])).mpr ?_
  rintro count ⟨-, -, filled, -⟩
  refine .inl (Int.not_le.mp fun large => ?_)
  exact absurd (filled 4 (by decide) (by omega)) (by decide)

theorem halves_unfit {half : List UInt8} (length : half.length = 2 ^ 31) :
    ¬DefragFits generousAllocator (halves half) := by
  intro fits
  have pair := fits _ (defragments_pair (halves_ok half) rfl rfl (Int.zero_add _).symm)
  simp only [length] at pair
  exact absurd pair (by decide)

theorem readAfterWrite_halves :
    EntryOk (halves (List.replicate (2 ^ 31) 0)) ∧
      ¬ReadAfterWrite generousAllocator ⟨halves (List.replicate (2 ^ 31) 0), 2 ^ 32, 1⟩ 0 [1] := by
  refine ⟨halves_ok _, ?_⟩
  intro holds
  obtain ⟨result, context', found, _⟩ := holds.get
  rw [getCacheFragment_fault generousAllocator (halves_ok _)
    (halves_unfit List.length_replicate)] at found
  exact absurd found (by simp)

end KcnTools.Cache
