import KcnTools.Cache.CacheInvariant

/-! The specifications of the exported operations of `cache.c`, each for an entry
that satisfies the fragment-list invariant. -/

namespace KcnTools.Cache

/-! `add_fragment`. -/

theorem cutBytes_zero (offset : Int) {fragments : List Fragment} (ok : ∀ f ∈ fragments, f.Ok) :
    cutBytes offset 0 fragments = 0 := by
  induction fragments with
  | nil => rfl
  | cons f rest ih =>
      have fits := (ok f (by simp)).fits
      have fEnd : f.endOffset = f.offset + f.length := rfl
      rw [cutBytes, ih fun g member => ok g (by simp [member])]
      repeat' split
      all_goals omega

theorem addFragment_spec (memory : Allocator) {context : CacheContext} (offset : Int)
    (data : List UInt8) (valid : EntryOk context.entry) :
    ∃ ret context', addFragment memory context offset data = some (ret, context') ∧
      Added context context.entry.frag offset data
        (cutBytes offset data.length context.entry.frag) ret context' := by
  cases data with
  | nil =>
      refine ⟨0, context, rfl, valid, ?_, fun _ _ => rfl, fun _ _ inside => absurd inside (by simp),
        fun _ _ _ => Or.inr rfl⟩
      intro _
      rw [List.length_nil, Int.ofNat_zero, cutBytes_zero offset valid.ok, Int.sub_self]
      exact Enlarged.refl context
  | cons byte rest =>
      simp only [addFragment, List.isEmpty_cons, Bool.false_eq_true, ↓reduceIte]
      generalize byte :: rest = data
      have reaches : offset + data.length ≤ (extendEntry context (offset + data.length)).entry.length ∧
          context.entry.length ≤ (extendEntry context (offset + data.length)).entry.length := by
        simp only [extendEntry]
        split <;> omega
      obtain ⟨ret, context', result, added⟩ := addFragmentLoop_spec memory
        (extendEntry context (offset + data.length)) offset data [] context.entry.frag valid.ok valid.ordered (by
          intro f member
          have bound := valid.bounded f member
          omega) (by simp) reaches.1
      refine ⟨ret, context', result, added.valid, ?_, added.before, added.written, added.after⟩
      intro enough
      have sizes := added.enlarged enough
      exact ⟨sizes.dataSize, sizes.cacheSize⟩

/-! `free_entry_to`. -/

structure Freed (offset : Int) (context : CacheContext) (fragments : List Fragment)
    (context' : CacheContext) (fragments' : List Fragment) : Prop where
  ok : ∀ f ∈ fragments', f.Ok
  ordered : fragments'.Pairwise fun f g => f.endOffset ≤ g.offset
  origin : ∀ f ∈ fragments', ∃ g ∈ fragments, g.offset ≤ f.offset ∧ f.endOffset = g.endOffset
  sizesOnly : SizesOnly context context'
  enlarged : totalLength fragments ≤ context.entry.dataSize →
    Enlarged context context' (totalLength fragments' - totalLength fragments)
  lookup : ∀ position, Segment.lookup (segments fragments') position =
    if offset ≤ position then Segment.lookup (segments fragments) position else none

theorem freeFragmentsTo_spec (offset : Int) (context : CacheContext) {fragments : List Fragment}
    (ok : ∀ f ∈ fragments, f.Ok) (ordered : fragments.Pairwise fun f g => f.endOffset ≤ g.offset) :
    ∃ context' fragments', freeFragmentsTo offset context fragments = some (context', fragments') ∧
      Freed offset context fragments context' fragments' := by
  induction fragments generalizing context with
  | nil =>
      refine ⟨context, [], rfl, by simp, by simp, by simp, .refl context, ?_, by simp⟩
      intro _
      simpa using Enlarged.refl context
  | cons f rest ih =>
      have fOk := ok f (by simp)
      have nonnegative := fOk.nonnegative
      have fits := fOk.fits
      have allocated := fOk.allocated
      have fEnd : f.endOffset = f.offset + f.length := rfl
      have restOk : ∀ g ∈ rest, g.Ok := fun g member => ok g (by simp [member])
      have restLength := totalLength_nonneg restOk
      obtain ⟨apart, restOrdered⟩ := List.pairwise_cons.mp ordered
      by_cases whole : f.endOffset ≤ offset
      · obtain ⟨context', fragments', result, freed⟩ :=
          ih (enlargeEntry context (-f.length)) restOk restOrdered
        refine ⟨context', fragments', ?_, freed.ok, freed.ordered, ?_,
          (enlargeEntry_sizesOnly _ _).trans freed.sizesOnly, ?_, ?_⟩
        · rw [freeFragmentsTo, if_pos (by omega), result]
        · intro g member
          obtain ⟨h, origin, bounds⟩ := freed.origin g member
          exact ⟨h, by simp [origin], bounds⟩
        · intro enough
          rw [totalLength_cons] at enough
          have first : Enlarged context (enlargeEntry context (-f.length)) (-f.length) :=
            enlargeEntry_enlarged _ _ (by omega)
          have size := first.dataSize
          have both := first.trans (freed.enlarged (by omega))
          rw [totalLength_cons]
          rwa [show totalLength fragments' - (f.length + totalLength rest) =
            -f.length + (totalLength fragments' - totalLength rest) by omega]
        · intro position
          rw [freed.lookup, segments_cons, Segment.lookup_cons]
          by_cases beyond : offset ≤ position
          · rw [if_pos beyond, if_pos beyond, segment_cell_of_endOffset_le fOk (by omega),
              Option.none_or]
          · rw [if_neg beyond, if_neg beyond]
      · by_cases straddles : f.offset < offset
        · obtain ⟨bytes, read⟩ := Buffer.read_exists f.data (offset - f.offset)
            (f.length - (offset - f.offset)) (by omega) (by omega) (by omega)
          have bytesLength := Buffer.read_length read
          obtain ⟨data, written⟩ := Buffer.write_exists f.data 0 bytes (by omega)
            (by omega)
          have dataLength := Buffer.write_length written
          obtain ⟨context', fragments', result, freed⟩ :=
            ih (enlargeEntry context (-(offset - f.offset))) restOk restOrdered
          have trimmed : Fragment.Ok { f with
              offset, length := f.length - (offset - f.offset), data } :=
            ⟨by simp only; omega, by simp only; omega, by simp only; omega⟩
          have trimmedEnd : Fragment.endOffset { f with
              offset, length := f.length - (offset - f.offset), data } = f.endOffset := by
            simp only [Fragment.endOffset]
            omega
          refine ⟨context', { f with offset, length := f.length - (offset - f.offset), data } ::
            fragments', ?_, ?_, ?_, ?_, (enlargeEntry_sizesOnly _ _).trans freed.sizesOnly, ?_, ?_⟩
          · rw [freeFragmentsTo, if_neg (by omega), if_pos straddles]
            simp only [Option.bind_eq_bind, Option.bind_some, read, written, result]
          · intro g member
            rcases List.mem_cons.mp member with rfl | later
            · exact trimmed
            · exact freed.ok g later
          · refine List.pairwise_cons.mpr ⟨?_, freed.ordered⟩
            intro g member
            obtain ⟨h, origin, start, _⟩ := freed.origin g member
            have beyond := apart h origin
            omega
          · intro g member
            rcases List.mem_cons.mp member with rfl | later
            · exact ⟨f, by simp, by simp only; omega, trimmedEnd⟩
            · obtain ⟨h, origin, bounds⟩ := freed.origin g later
              exact ⟨h, by simp [origin], bounds⟩
          · intro enough
            rw [totalLength_cons] at enough
            have first : Enlarged context (enlargeEntry context (-(offset - f.offset)))
                (-(offset - f.offset)) := enlargeEntry_enlarged _ _ (by omega)
            have size := first.dataSize
            have both := first.trans (freed.enlarged (by omega))
            rw [totalLength_cons, totalLength_cons]
            simp only
            rwa [show f.length - (offset - f.offset) + totalLength fragments' -
              (f.length + totalLength rest) =
              -(offset - f.offset) + (totalLength fragments' - totalLength rest) by omega]
          · intro position
            rw [segments_cons, segments_cons, Segment.lookup_cons, Segment.lookup_cons, freed.lookup]
            by_cases beyond : offset ≤ position
            · rw [if_pos beyond, if_pos beyond]
              by_cases inside : position < f.endOffset
              · rw [segment_cell (f := f) (by omega) inside, segment_cell (by exact beyond)
                  (by rw [trimmedEnd]; exact inside), Buffer.write_getElem? written,
                  if_pos (by simp only; omega), Buffer.read_getElem? read,
                  if_pos (by simp only; omega)]
                congr 2
                simp only
                omega
              · rw [segment_cell_of_endOffset_le fOk (by omega),
                  segment_cell_of_endOffset_le trimmed (by rw [trimmedEnd]; omega)]
            · rw [if_neg beyond, if_neg beyond,
                Segment.cell_of_lt_start (by simp only [segment_start]; omega)]
              rfl
        · refine ⟨context, f :: rest, ?_, ok, ordered, ?_, .refl context, ?_, ?_⟩
          · rw [freeFragmentsTo, if_neg (by omega), if_neg straddles]
          · intro g member
            exact ⟨g, member, Int.le_refl _, rfl⟩
          · intro _
            rw [Int.sub_self]
            exact Enlarged.refl context
          · intro position
            by_cases beyond : offset ≤ position
            · rw [if_pos beyond]
            · rw [if_neg beyond, lookup_segments_of_lt_offset]
              intro g member
              rcases List.mem_cons.mp member with rfl | later
              · omega
              · have start := apart g later
                omega

theorem freeEntryTo_spec (offset : Int) {context : CacheContext} (valid : EntryOk context.entry) :
    ∃ context', freeEntryTo context offset = some context' ∧ EntryOk context'.entry ∧
      Accounts context context' ∧
      ∀ position, context'.entry.contents position =
        if offset ≤ position then context.entry.contents position else none := by
  obtain ⟨context', fragments', result, freed⟩ :=
    freeFragmentsTo_spec offset context valid.ok valid.ordered
  refine ⟨context'.setFrag fragments', by simp [freeEntryTo, result],
    ⟨freed.ok, freed.ordered, ?_⟩, ?_, freed.lookup⟩
  · intro f member
    obtain ⟨g, origin, _, same⟩ := freed.origin f member
    rw [setFrag_length, freed.sizesOnly.length, same]
    exact valid.bounded g origin
  · intro enough
    exact (freed.enlarged enough).setFrag fragments'

/-! `delete_entry_content` and `normalize_cache_entry`. -/

theorem deleteEntryContent_spec (context : CacheContext) :
    EntryOk (deleteEntryContent context).entry ∧
      Enlarged context (deleteEntryContent context) (-context.entry.dataSize) ∧
      (deleteEntryContent context).entry.frag = [] := by
  have sizes : Enlarged context (enlargeEntry context (-context.entry.dataSize))
      (-context.entry.dataSize) := enlargeEntry_enlarged _ _ (by omega)
  exact ⟨⟨by simp [deleteEntryContent], by simp [deleteEntryContent], by simp [deleteEntryContent]⟩,
    ⟨sizes.dataSize, sizes.cacheSize⟩, rfl⟩

theorem normalizeCacheEntry_spec (memory : Allocator) {context : CacheContext}
    (truncateLength : Int) (valid : EntryOk context.entry) :
    EntryOk (normalizeCacheEntry memory context truncateLength).entry ∧
      Accounts context (normalizeCacheEntry memory context truncateLength) := by
  by_cases negative : truncateLength < 0
  · rw [normalizeCacheEntry, if_pos negative]
    refine ⟨valid, fun _ => ?_⟩
    rw [Int.sub_self]
    exact Enlarged.refl context
  · obtain ⟨ok, accounts, _⟩ := truncateEntry_spec memory context truncateLength true valid
    rw [normalizeCacheEntry, if_neg negative]
    refine ⟨⟨ok.ok, ok.ordered, ok.bounded⟩, fun enough => ?_⟩
    have sizes := accounts enough
    exact ⟨sizes.dataSize, sizes.cacheSize⟩

end KcnTools.Cache
