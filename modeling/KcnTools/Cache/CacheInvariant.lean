import KcnTools.Cache.CacheFragments

/-! The fragment-list invariant, and what each operation of `cache.c` does to an
entry that satisfies it: the list it leaves, the bytes it maps and the sizes. -/

namespace KcnTools.Cache

structure EntryOk (entry : CacheEntry) : Prop where
  ok : ∀ f ∈ entry.frag, f.Ok
  ordered : entry.frag.Pairwise fun f g => f.endOffset ≤ g.offset
  bounded : ∀ f ∈ entry.frag, f.endOffset ≤ entry.length

def CacheEntry.contents (entry : CacheEntry) (position : Int) : Option UInt8 :=
  Segment.lookup (segments entry.frag) position

theorem EntryOk.sorted {entry : CacheEntry} (valid : EntryOk entry) :
    entry.frag.Pairwise fun f g => f.offset ≤ g.offset := by
  apply valid.ordered.imp_of_mem
  intro f g member _ apart
  have length := (valid.ok f member).nonnegative
  rw [Fragment.endOffset] at apart
  omega

theorem emptyEntry_ok (id : Int) : EntryOk (emptyEntry id) :=
  ⟨by simp [emptyEntry], by simp [emptyEntry], by simp [emptyEntry]⟩

@[simp] theorem setFrag_frag (context : CacheContext) (frag : List Fragment) :
    (context.setFrag frag).entry.frag = frag := rfl

@[simp] theorem setFrag_length (context : CacheContext) (frag : List Fragment) :
    (context.setFrag frag).entry.length = context.entry.length := rfl

theorem Enlarged.setFrag {context after : CacheContext} {size : Int}
    (enlarged : Enlarged context after size) (frag : List Fragment) :
    Enlarged context (after.setFrag frag) size := ⟨enlarged.dataSize, enlarged.cacheSize⟩

/-! Truncation. -/

/-- What a whole-entry operation does to the sizes when none of its deltas is forgotten. -/
def Accounts (context after : CacheContext) : Prop :=
  totalLength context.entry.frag ≤ context.entry.dataSize →
    Enlarged context after (totalLength after.entry.frag - totalLength context.entry.frag)

theorem truncateEntry_spec (memory : Allocator) (context : CacheContext) (offset : Int)
    (final : Bool) (valid : EntryOk context.entry) :
    EntryOk (truncateEntry memory context offset final).entry ∧
      Accounts context (truncateEntry memory context offset final) ∧
      ∀ position, (truncateEntry memory context offset final).entry.contents position =
        if position < offset then context.entry.contents position else none := by
  have cutLength : ∃ cut : CacheContext, Enlarged context cut 0 ∧
      cut.entry.frag = context.entry.frag ∧
      cut.entry.length = min context.entry.length offset ∧
      truncateEntry memory context offset final =
        (truncateFragments memory offset final cut cut.entry.frag).1.setFrag
          (truncateFragments memory offset final cut cut.entry.frag).2 := by
    by_cases longer : context.entry.length > offset
    · refine ⟨_, ⟨?_, ?_⟩, ?_, ?_, by rw [truncateEntry, if_pos longer]⟩
      · simp only [Int.add_zero]
      · simp only [Int.add_zero]
      · rfl
      · simp only
        omega
    · exact ⟨context, .refl context, rfl, by omega, by rw [truncateEntry, if_neg longer]⟩
  obtain ⟨cut, noChange, sameFrag, cutEnd, result⟩ := cutLength
  rw [result, sameFrag]
  have truncated := truncateFragments_spec memory offset final cut valid.ok valid.ordered
  refine ⟨⟨truncated.ok, truncated.ordered, ?_⟩, ?_, ?_⟩
  · intro f member
    obtain ⟨g, origin, _, shorter⟩ := truncated.origin f member
    have within := truncated.within f member
    have bound := valid.bounded g origin
    rw [setFrag_length, truncated.sizesOnly.length, cutEnd]
    omega
  · intro enough
    have size := noChange.dataSize
    have rest := truncated.enlarged (by omega)
    have whole := (noChange.trans rest).setFrag
      (truncateFragments memory offset final cut context.entry.frag).2
    rwa [Int.zero_add] at whole
  · intro position
    exact truncated.lookup position

/-! Adding a fragment. -/

/-- What `add_fragment` leaves when it starts from `fragments`; `lost` bytes leave the
list without leaving the sizes. -/
structure Added (context : CacheContext) (fragments : List Fragment) (offset : Int)
    (data : List UInt8) (lost : Int) (ret : Int) (context' : CacheContext) : Prop where
  valid : EntryOk context'.entry
  enlarged : totalLength fragments ≤ context.entry.dataSize →
    Enlarged context context' (totalLength context'.entry.frag - totalLength fragments + lost)
  before : ∀ position, position < offset →
    context'.entry.contents position = Segment.lookup (segments fragments) position
  written : ret ≠ -1 → ∀ index : Nat, index < data.length →
    context'.entry.contents (offset + index) = data[index]?
  after : ret ≠ -1 → ∀ position, offset + data.length ≤ position →
    context'.entry.contents position = none ∨
      context'.entry.contents position = Segment.lookup (segments fragments) position

theorem Added.truncate {context context' : CacheContext} {fragments : List Fragment}
    {offset lost ret : Int} {data : List UInt8} (memory : Allocator) (nonnegative : 0 ≤ lost)
    (added : Added context fragments offset data lost ret context') :
    Added context fragments offset data lost ret
      (truncateEntry memory context' (offset + data.length) false) := by
  obtain ⟨valid, accounts, contents⟩ :=
    truncateEntry_spec memory context' (offset + data.length) false added.valid
  refine ⟨valid, ?_, ?_, ?_, ?_⟩
  · intro enough
    have first := added.enlarged enough
    have size := first.dataSize
    have kept := totalLength_nonneg added.valid.ok
    have whole := first.trans (accounts (by omega))
    rwa [show ∀ a b c : Int, a - b + lost + (c - a) = c - b + lost by intros; omega] at whole
  · intro position below
    rw [contents, if_pos (by omega), added.before position below]
  · intro success index inside
    rw [contents, if_pos (by omega), added.written success index inside]
  · intro success position beyond
    rw [contents, if_neg (by omega)]
    exact Or.inl rfl

/-- The list may be changed first where the new data goes, if the sizes follow. -/
theorem Added.of_same {first context context' : CacheContext} {old fragments : List Fragment}
    {offset lost ret : Int} {data : List UInt8}
    (added : Added context fragments offset data 0 ret context') (nonnegative : 0 ≤ lost)
    (same : ∀ position, position < offset ∨ offset + data.length ≤ position →
      Segment.lookup (segments fragments) position = Segment.lookup (segments old) position)
    (enlarged : totalLength old ≤ first.entry.dataSize →
      Enlarged first context (totalLength fragments - totalLength old + lost)) :
    Added first old offset data lost ret context' where
  valid := added.valid
  enlarged := by
    intro enough
    have start := enlarged enough
    have size := start.dataSize
    have whole := start.trans (added.enlarged (by omega))
    rwa [show ∀ a b c : Int, a - b + lost + (c - a + 0) = c - b + lost by intros; omega] at whole
  before := by
    intro position below
    rw [added.before position below, same position (Or.inl below)]
  written := added.written
  after := by
    intro success position beyond
    rw [← same position (Or.inr beyond)]
    exact added.after success position beyond

/-- The fragment list with `g` in place, `before` ahead of it and `after` behind it. -/
structure Placed (before : List Fragment) (g : Fragment) (after : List Fragment)
    (offset : Int) (data : List UInt8) (length : Int) : Prop where
  beforeOk : ∀ f ∈ before, f.Ok
  beforeOrdered : before.Pairwise fun f h => f.endOffset ≤ h.offset
  beforeApart : ∀ f ∈ before, f.endOffset ≤ g.offset
  afterOk : ∀ f ∈ after, f.Ok
  afterOrdered : after.Pairwise fun f h => f.endOffset ≤ h.offset
  afterStarts : ∀ f ∈ after, offset ≤ f.offset
  bounded : ∀ f ∈ before ++ g :: after, f.endOffset ≤ length
  ok : g.Ok
  starts : g.offset ≤ offset
  ends : offset + data.length ≤ g.endOffset
  written : ∀ index : Nat, index < data.length → g.segment.cell (offset + index) = data[index]?

theorem Placed.removeOverlaps {before after : List Fragment} {g : Fragment} {offset : Int}
    {data : List UInt8} {context : CacheContext} (memory : Allocator) (trunc : Bool) (ret : Int)
    (placed : Placed before g after offset data context.entry.length) :
    ∃ context' g' after' trunc',
      Cache.removeOverlaps memory g.endOffset context g after trunc =
        some (context', g', after', trunc') ∧
      Added context (before ++ g :: after) offset data 0 ret
        (context'.setFrag (before ++ g' :: after')) := by
  have starts := placed.starts
  have ends := placed.ends
  obtain ⟨context', g', after', trunc', removed, spec⟩ := removeOverlaps_spec memory context trunc
    placed.ok placed.afterOk (fun h member => by
      have later := placed.afterStarts h member
      omega) placed.afterOrdered
  refine ⟨context', g', after', trunc', removed, ?_⟩
  have covers := spec.covers
  have newStart := spec.offset
  have kept : ∀ h ∈ after', h ∈ after := fun h member => spec.suffix.subset member
  have beforeEnds : ∀ f ∈ before, f.endOffset ≤ offset := by
    intro f member
    have apart := placed.beforeApart f member
    omega
  have afterNone : ∀ position, position < g.endOffset →
      Segment.lookup (segments after') position = none := by
    intro position below
    apply lookup_segments_of_lt_offset
    intro h member
    have apart := spec.apart h member
    omega
  refine ⟨⟨?_, ?_, ?_⟩, ?_, ?_, ?_, ?_⟩
  · intro f member
    rcases List.mem_append.mp member with earlier | later
    · exact placed.beforeOk f earlier
    · rcases List.mem_cons.mp later with rfl | behind
      · exact spec.ok
      · exact placed.afterOk f (kept f behind)
  · refine List.pairwise_append.mpr ⟨placed.beforeOrdered, ?_, ?_⟩
    · exact List.pairwise_cons.mpr
        ⟨spec.apart, placed.afterOrdered.sublist spec.suffix.sublist⟩
    · intro f earlier h later
      have apart := placed.beforeApart f earlier
      rcases List.mem_cons.mp later with rfl | behind
      · omega
      · have start := placed.afterStarts h (kept h behind)
        omega
  · intro f member
    rw [setFrag_length, spec.sizesOnly.length]
    rcases List.mem_append.mp member with earlier | later
    · exact placed.bounded f (by simp [earlier])
    · rcases List.mem_cons.mp later with rfl | behind
      · rcases spec.bounded with same | ⟨h, inside, same⟩
        · rw [same]
          exact placed.bounded g (by simp)
        · rw [same]
          exact placed.bounded h (by simp [inside])
      · exact placed.bounded f (by simp [kept f behind])
  · intro enough
    rw [totalLength_append, totalLength_cons] at enough
    have beforeLength := totalLength_nonneg placed.beforeOk
    have sizes := (spec.enlarged (by omega)).setFrag (before ++ g' :: after')
    rw [setFrag_frag, totalLength_append, totalLength_cons, totalLength_append, totalLength_cons]
    rwa [show ∀ a b c : Int, a + b - (a + c) + 0 = b - c by intros; omega]
  · intro position below
    have oldNone : Segment.lookup (segments after) position = none := by
      apply lookup_segments_of_lt_offset
      intro h member
      have later := placed.afterStarts h member
      omega
    rw [CacheEntry.contents, setFrag_frag, segments_append, segments_append, segments_cons,
      segments_cons, Segment.lookup_append, Segment.lookup_append, Segment.lookup_cons,
      Segment.lookup_cons, spec.kept position (by omega), afterNone position (by omega), oldNone]
  · intro _ index inside
    rw [CacheEntry.contents, setFrag_frag, segments_append, segments_cons, Segment.lookup_append,
      Segment.lookup_cons, spec.kept _ (by omega), placed.written index inside,
      lookup_segments_of_endOffset_le placed.beforeOk _ (fun f member => by
        have apart := beforeEnds f member
        omega), List.getElem?_eq_getElem inside]
    rfl
  · intro _ position beyond
    have none := lookup_segments_of_endOffset_le placed.beforeOk position
      (fun f member => by
        have apart := beforeEnds f member
        omega)
    rw [CacheEntry.contents, setFrag_frag, segments_append, segments_append, Segment.lookup_append,
      Segment.lookup_append, none, Option.none_or, Option.none_or]
    by_cases inside : position < g.endOffset
    · right
      have defined : (g.segment.cell position).isSome :=
        Segment.cell_isSome (by rw [segment_start]; omega) (by rw [segment_stop placed.ok]; exact inside)
      obtain ⟨byte, found⟩ := Option.isSome_iff_exists.mp defined
      rw [segments_cons, segments_cons, Segment.lookup_cons, Segment.lookup_cons,
        spec.kept position inside, found]
      rfl
    · have later := spec.later position (by omega)
      rw [show segments (g :: after) = g.segment :: segments after from rfl,
        Segment.lookup_cons g.segment,
        segment_cell_of_endOffset_le placed.ok (by omega), Option.none_or]
      exact later

theorem cachePad_write (data : List UInt8) :
    data.length ≤ cachePad data.length ∧
      ∃ bytes, Buffer.write (List.replicate ((cachePad data.length : Int)).toNat 0) 0 data =
        some bytes ∧ bytes.length = cachePad data.length := by
  have large : data.length ≤ data.length ||| 0x3fff := Nat.left_le_or
  have room : data.length ≤ cachePad data.length := by
    rw [cachePad]
    omega
  obtain ⟨bytes, written⟩ := Buffer.write_exists
    (List.replicate ((cachePad data.length : Int)).toNat (0 : UInt8)) 0 data (Int.le_refl 0)
    (by rw [List.length_replicate]; omega)
  refine ⟨room, bytes, written, ?_⟩
  rw [Buffer.write_length written, List.length_replicate]
  omega

theorem insertFragment_spec (memory : Allocator) (context : CacheContext)
    (before after : List Fragment) (offset : Int) (data : List UInt8)
    (ok : ∀ f ∈ before ++ after, f.Ok)
    (ordered : (before ++ after).Pairwise fun f g => f.endOffset ≤ g.offset)
    (bounded : ∀ f ∈ before ++ after, f.endOffset ≤ context.entry.length)
    (ends : ∀ f ∈ before, f.endOffset ≤ offset) (starts : ∀ f ∈ after, offset ≤ f.offset)
    (end_le : offset + data.length ≤ context.entry.length) :
    ∃ ret context', insertFragment memory context before after offset data = some (ret, context') ∧
      Added context (before ++ after) offset data 0 ret context' := by
  obtain ⟨beforeOrdered, afterOrdered, apart⟩ := List.pairwise_append.mp ordered
  cases granted : memory.alloc (fragSize (cachePad data.length)) with
  | false =>
      refine ⟨-1, context.setFrag (before ++ after), by simp [insertFragment, fragAlloc, granted], ?_⟩
      refine ⟨⟨ok, ordered, bounded⟩, ?_, ?_, ?_, ?_⟩
      · intro _
        rw [setFrag_frag, Int.sub_self]
        exact (Enlarged.refl context).setFrag _
      · intro position _
        rfl
      · intro success
        exact absurd rfl success
      · intro success
        exact absurd rfl success
  | true =>
      obtain ⟨room, bytes, written, bytesLength⟩ := cachePad_write data
      have placed : Placed before
          { offset, length := data.length, realLength := cachePad data.length, data := bytes } after
          offset data (enlargeEntry context data.length).entry.length := by
        refine ⟨fun f member => ok f (by simp [member]), beforeOrdered, ends,
          fun f member => ok f (by simp [member]), afterOrdered, starts, ?_, ⟨?_, ?_, ?_⟩,
          Int.le_refl _, Int.le_refl _, ?_⟩
        · intro f member
          rcases List.mem_append.mp member with earlier | later
          · exact bounded f (by simp [earlier])
          · rcases List.mem_cons.mp later with rfl | behind
            · exact end_le
            · exact bounded f (by simp [behind])
        · simp only
          omega
        · simp only
          omega
        · simp only
          omega
        · intro index inside
          rw [segment_cell (by simp only; omega) (by simp only [Fragment.endOffset]; omega),
            Buffer.write_getElem? written, if_pos (by simp only; omega)]
          congr 1
          simp only
          omega
      obtain ⟨context', nf, after', trunc, removed, added⟩ :=
        placed.removeOverlaps memory false 1
      have same : Added context (before ++ after) offset data 0 1
          (context'.setFrag (before ++ nf :: after')) := by
        refine added.of_same (Int.le_refl 0) ?_ ?_
        · intro position outside
          rw [segments_append, segments_append, segments_cons, Segment.lookup_append,
            Segment.lookup_append, Segment.lookup_cons]
          rcases outside with below | beyond
          · rw [Segment.cell_of_lt_start (by rw [segment_start]; exact below), Option.none_or]
          · rw [segment_cell_of_endOffset_le placed.ok (by exact beyond), Option.none_or]
        · intro enough
          have total := totalLength_nonneg ok
          have sizes : Enlarged context (enlargeEntry context data.length) data.length :=
            enlargeEntry_enlarged _ _ (by omega)
          rw [totalLength_append, totalLength_append, totalLength_cons] at *
          rwa [show ∀ a b c : Int, a + (b + c) - (a + c) + 0 = b by intros; omega]
      rw [Fragment.endOffset] at removed
      cases trunc with
      | false =>
          refine ⟨1, _, ?_, same⟩
          simp only [insertFragment, fragAlloc, granted, ↓reduceIte, Option.bind_eq_bind,
            Option.bind_some, written, removed, Bool.false_eq_true]
      | true =>
          refine ⟨1, _, ?_, same.truncate memory (Int.le_refl 0)⟩
          simp only [insertFragment, fragAlloc, granted, ↓reduceIte, Option.bind_eq_bind,
            Option.bind_some, written, removed]

theorem overwriteFragment_spec (memory : Allocator) (context : CacheContext)
    (before : List Fragment) (f : Fragment) (after : List Fragment) (offset : Int)
    (data : List UInt8) (ret : Int)
    (ok : ∀ g ∈ before ++ f :: after, g.Ok)
    (beforeOrdered : before.Pairwise fun g h => g.endOffset ≤ h.offset)
    (beforeApart : ∀ g ∈ before, g.endOffset ≤ f.offset)
    (afterOrdered : after.Pairwise fun g h => g.endOffset ≤ h.offset)
    (afterStarts : ∀ g ∈ after, offset ≤ g.offset)
    (bounded : ∀ g ∈ before ++ f :: after, g.endOffset ≤ context.entry.length)
    (starts : f.offset ≤ offset) (ends : offset + data.length ≤ f.endOffset) :
    ∃ context', overwriteFragment memory context before f after offset data ret =
        some (ret, context') ∧
      Added context (before ++ f :: after) offset data 0 ret context' := by
  have fOk := ok f (by simp)
  have fits := fOk.fits
  have allocated := fOk.allocated
  have fEnd : f.endOffset = f.offset + f.length := rfl
  obtain ⟨bytes, written⟩ := Buffer.write_exists f.data (offset - f.offset) data (by omega)
    (by omega)
  have cell : ∀ position, f.offset ≤ position → position < f.endOffset →
      (Fragment.segment { f with data := bytes }).cell position =
        bytes[(position - f.offset).toNat]? := fun position lower upper => segment_cell lower upper
  have placed : Placed before { f with data := bytes } after offset data context.entry.length := by
    refine ⟨fun g member => ok g (by simp [member]), beforeOrdered, beforeApart,
      fun g member => ok g (by simp [member]), afterOrdered, afterStarts, ?_,
      ⟨fOk.nonnegative, fits, ?_⟩, starts, ends, ?_⟩
    · intro g member
      rcases List.mem_append.mp member with earlier | later
      · exact bounded g (by simp [earlier])
      · rcases List.mem_cons.mp later with rfl | behind
        · exact bounded f (by simp)
        · exact bounded g (by simp [behind])
    · simp only
      rw [Buffer.write_length written, allocated]
    · intro index inside
      rw [cell _ (by omega) (by omega), Buffer.write_getElem? written, if_pos (by omega)]
      congr 1
      omega
  obtain ⟨context', g, after', trunc, removed, added⟩ := placed.removeOverlaps memory false ret
  have same : Added context (before ++ f :: after) offset data 0 ret
      (context'.setFrag (before ++ g :: after')) := by
    refine added.of_same (Int.le_refl 0) ?_ ?_
    · intro position outside
      have equal : (Fragment.segment { f with data := bytes }).cell position =
          f.segment.cell position := by
        by_cases lower : f.offset ≤ position
        · by_cases upper : position < f.endOffset
          · rw [cell position lower upper, segment_cell lower upper,
              Buffer.write_getElem? written, if_neg (by omega)]
          · rw [segment_cell_of_endOffset_le placed.ok (by exact Int.not_lt.mp upper),
              segment_cell_of_endOffset_le fOk (by omega)]
        · rw [Segment.cell_of_lt_start (by simp only [segment_start]; omega),
            Segment.cell_of_lt_start (by simp only [segment_start]; omega)]
      rw [segments_append, segments_append, segments_cons, segments_cons, Segment.lookup_append,
        Segment.lookup_append, Segment.lookup_cons, Segment.lookup_cons, equal]
    · intro _
      have sizes := Enlarged.refl context
      rw [totalLength_append, totalLength_append, totalLength_cons, totalLength_cons]
      rwa [show ∀ a b c : Int, a + (b + c) - (a + (b + c)) + 0 = 0 by intros; omega]
  rw [show Fragment.endOffset { f with data := bytes } = f.offset + f.length from rfl] at removed
  refine ⟨_, ?_, same.truncate memory (Int.le_refl 0)⟩
  simp [overwriteFragment, written, removed]

/-- The bytes that `add_fragment` cuts off a fragment without `enlarge_entry`: the new
data runs past the end of the first fragment that it meets, and past its block. -/
def cutBytes (offset length : Int) : List Fragment → Int
  | [] => 0
  | f :: rest =>
      if f.offset > offset then 0
      else if f.endOffset < offset then cutBytes offset length rest
      else if offset + length - f.offset > f.realLength then f.endOffset - offset
      else 0

/-- Changing the length of `f`, but not where it meets positions outside the new data,
leaves the map there as it was. -/
theorem lookup_relength {before after : List Fragment} {f : Fragment} {length position : Int}
    (fOk : f.Ok) (newOk : Fragment.Ok { f with length })
    (same : position < f.endOffset ∧ position < f.offset + length ∨
      f.endOffset ≤ position ∧ f.offset + length ≤ position) :
    Segment.lookup (segments (before ++ { f with length } :: after)) position =
      Segment.lookup (segments (before ++ f :: after)) position := by
  have equal : (Fragment.segment { f with length }).cell position = f.segment.cell position := by
    rcases same with ⟨below, newBelow⟩ | ⟨beyond, newBeyond⟩
    · by_cases lower : f.offset ≤ position
      · rw [segment_cell (f := f) lower below, segment_cell (by exact lower) (by exact newBelow)]
      · rw [Segment.cell_of_lt_start (by simp only [segment_start]; omega),
          Segment.cell_of_lt_start (by simp only [segment_start]; omega)]
    · rw [segment_cell_of_endOffset_le newOk (by exact newBeyond),
        segment_cell_of_endOffset_le fOk beyond]
  rw [segments_append, segments_append, segments_cons, segments_cons, Segment.lookup_append,
    Segment.lookup_append, Segment.lookup_cons, Segment.lookup_cons, equal]

/-- The branch of `add_fragment` that lets a fragment grow inside its block. -/
theorem growFragment_spec (memory : Allocator) (context : CacheContext)
    (before : List Fragment) (f : Fragment) (after : List Fragment) (offset : Int)
    (data : List UInt8)
    (ok : ∀ g ∈ before ++ f :: after, g.Ok)
    (beforeOrdered : before.Pairwise fun g h => g.endOffset ≤ h.offset)
    (beforeApart : ∀ g ∈ before, g.endOffset ≤ f.offset)
    (afterOrdered : after.Pairwise fun g h => g.endOffset ≤ h.offset)
    (afterStarts : ∀ g ∈ after, offset ≤ g.offset)
    (bounded : ∀ g ∈ before ++ f :: after, g.endOffset ≤ context.entry.length)
    (end_le : offset + data.length ≤ context.entry.length)
    (starts : f.offset ≤ offset) (meets : offset ≤ f.endOffset)
    (longer : offset + data.length > f.endOffset)
    (room : offset + data.length - f.offset ≤ f.realLength) :
    ∃ context', overwriteFragment memory
        (enlargeEntry context (offset + data.length - f.endOffset)) before
        { f with length := offset + data.length - f.offset } after offset data 1 =
        some (1, context') ∧
      Added context (before ++ f :: after) offset data 0 1 context' := by
  have fOk := ok f (by simp)
  have nonnegative := fOk.nonnegative
  have fEnd : f.endOffset = f.offset + f.length := rfl
  have grown : Fragment.Ok { f with length := offset + data.length - f.offset } :=
    ⟨by simp only; omega, room, fOk.allocated⟩
  have grownEnd : Fragment.endOffset { f with length := offset + data.length - f.offset } =
      offset + data.length := by
    simp only [Fragment.endOffset]
    omega
  obtain ⟨context', result, added⟩ := overwriteFragment_spec memory
    (enlargeEntry context (offset + data.length - f.endOffset)) before
    { f with length := offset + data.length - f.offset } after offset data 1 (by
      intro g member
      rcases List.mem_append.mp member with earlier | later
      · exact ok g (by simp [earlier])
      · rcases List.mem_cons.mp later with rfl | behind
        · exact grown
        · exact ok g (by simp [behind])) beforeOrdered beforeApart afterOrdered afterStarts (by
      intro g member
      rcases List.mem_append.mp member with earlier | later
      · exact bounded g (by simp [earlier])
      · rcases List.mem_cons.mp later with rfl | behind
        · rw [grownEnd]
          exact end_le
        · exact bounded g (by simp [behind])) starts (by omega)
  refine ⟨context', result, added.of_same (Int.le_refl 0) ?_ ?_⟩
  · intro position outside
    apply lookup_relength fOk grown
    omega
  · intro enough
    have total := totalLength_nonneg ok
    have sizes : Enlarged context (enlargeEntry context (offset + data.length - f.endOffset))
        (offset + data.length - f.endOffset) := enlargeEntry_enlarged _ _ (by omega)
    rw [totalLength_append, totalLength_append, totalLength_cons, totalLength_cons]
    simp only
    rwa [show totalLength before + (offset + data.length - f.offset + totalLength after) -
      (totalLength before + (f.length + totalLength after)) + 0 =
      offset + data.length - f.endOffset by omega]

/-- The branch of `add_fragment` that cuts a fragment and inserts a new one after it. -/
theorem cutFragment_spec (memory : Allocator) (context : CacheContext)
    (before : List Fragment) (f : Fragment) (after : List Fragment) (offset : Int)
    (data : List UInt8)
    (ok : ∀ g ∈ before ++ f :: after, g.Ok)
    (ordered : (before ++ f :: after).Pairwise fun g h => g.endOffset ≤ h.offset)
    (bounded : ∀ g ∈ before ++ f :: after, g.endOffset ≤ context.entry.length)
    (ends : ∀ g ∈ before, g.endOffset ≤ offset)
    (end_le : offset + data.length ≤ context.entry.length)
    (starts : f.offset ≤ offset) (meets : offset ≤ f.endOffset)
    (longer : offset + data.length > f.endOffset) :
    ∃ ret context', insertFragment memory context
        (before ++ [{ f with length := offset - f.offset }]) after offset data =
        some (ret, context') ∧
      Added context (before ++ f :: after) offset data (f.endOffset - offset) ret context' := by
  have fOk := ok f (by simp)
  have fits := fOk.fits
  have fEnd : f.endOffset = f.offset + f.length := rfl
  have cutOk : Fragment.Ok { f with length := offset - f.offset } :=
    ⟨by simp only; omega, by simp only; omega, fOk.allocated⟩
  have cutEnd : Fragment.endOffset { f with length := offset - f.offset } = offset := by
    simp only [Fragment.endOffset]
    omega
  obtain ⟨beforeOrdered, restOrdered, apart⟩ := List.pairwise_append.mp ordered
  obtain ⟨fApart, afterOrdered⟩ := List.pairwise_cons.mp restOrdered
  have list : before ++ [{ f with length := offset - f.offset }] ++ after =
      before ++ { f with length := offset - f.offset } :: after := by simp
  obtain ⟨ret, context', result, added⟩ := insertFragment_spec memory context
    (before ++ [{ f with length := offset - f.offset }]) after offset data (by
      rw [list]
      intro g member
      rcases List.mem_append.mp member with earlier | later
      · exact ok g (by simp [earlier])
      · rcases List.mem_cons.mp later with rfl | behind
        · exact cutOk
        · exact ok g (by simp [behind])) (by
      rw [list]
      refine List.pairwise_append.mpr ⟨beforeOrdered, List.pairwise_cons.mpr ⟨?_, afterOrdered⟩, ?_⟩
      · intro g member
        have start := fApart g member
        omega
      · intro g earlier h later
        rcases List.mem_cons.mp later with rfl | behind
        · exact apart g earlier f (by simp)
        · exact apart g earlier h (by simp [behind])) (by
      rw [list]
      intro g member
      rcases List.mem_append.mp member with earlier | later
      · exact bounded g (by simp [earlier])
      · rcases List.mem_cons.mp later with rfl | behind
        · omega
        · exact bounded g (by simp [behind])) (by
      intro g member
      rcases List.mem_append.mp member with earlier | last
      · exact ends g earlier
      · rw [List.mem_singleton.mp last]
        omega) (by
      intro g member
      have start := fApart g member
      omega) end_le
  rw [list] at added
  refine ⟨ret, context', result, added.of_same (by omega) ?_ ?_⟩
  · intro position outside
    apply lookup_relength fOk cutOk
    omega
  · intro _
    have sizes := Enlarged.refl context
    rw [totalLength_append, totalLength_append, totalLength_cons, totalLength_cons]
    simp only
    rwa [show totalLength before + (offset - f.offset + totalLength after) -
      (totalLength before + (f.length + totalLength after)) + (f.endOffset - offset) = 0 by omega]

theorem addFragmentLoop_spec (memory : Allocator) (context : CacheContext) (offset : Int)
    (data : List UInt8) (before rest : List Fragment)
    (ok : ∀ f ∈ before ++ rest, f.Ok)
    (ordered : (before ++ rest).Pairwise fun f g => f.endOffset ≤ g.offset)
    (bounded : ∀ f ∈ before ++ rest, f.endOffset ≤ context.entry.length)
    (ends : ∀ f ∈ before, f.endOffset ≤ offset)
    (end_le : offset + data.length ≤ context.entry.length) :
    ∃ ret context', addFragmentLoop memory context offset data before rest =
        some (ret, context') ∧
      Added context (before ++ rest) offset data (cutBytes offset data.length rest) ret context' := by
  induction rest generalizing before with
  | nil =>
      exact insertFragment_spec memory context before [] offset data ok ordered bounded ends (by simp)
        end_le
  | cons f after ih =>
      have fOk := ok f (by simp)
      have fEnd : f.endOffset = f.offset + f.length := rfl
      have nonnegative := fOk.nonnegative
      obtain ⟨beforeOrdered, restOrdered, apart⟩ := List.pairwise_append.mp ordered
      obtain ⟨fApart, afterOrdered⟩ := List.pairwise_cons.mp restOrdered
      have beforeApart : ∀ g ∈ before, g.endOffset ≤ f.offset :=
        fun g member => apart g member f (by simp)
      by_cases behind : f.offset > offset
      · simp only [addFragmentLoop, cutBytes, if_pos behind]
        refine insertFragment_spec memory context before (f :: after) offset data ok ordered bounded
          ends ?_ end_le
        intro g member
        rcases List.mem_cons.mp member with rfl | later
        · omega
        · have start := fApart g later
          omega
      · by_cases ahead : f.endOffset < offset
        · simp only [addFragmentLoop, cutBytes, if_neg behind, ← fEnd, if_pos ahead]
          have same : before ++ f :: after = before ++ [f] ++ after := by simp
          rw [same] at ok ordered bounded ⊢
          refine ih _ ok ordered bounded ?_
          intro g member
          rcases List.mem_append.mp member with earlier | last
          · exact ends g earlier
          · rw [List.mem_singleton.mp last]
            omega
        · have afterStarts : ∀ g ∈ after, offset ≤ g.offset := by
            intro g member
            have start := fApart g member
            omega
          simp only [addFragmentLoop, cutBytes, if_neg behind, ← fEnd, if_neg ahead]
          by_cases longer : offset + data.length > f.endOffset
          · rw [if_pos longer]
            by_cases room : offset + data.length - f.offset ≤ f.realLength
            · rw [if_pos room, if_neg (by omega)]
              obtain ⟨context', result, added⟩ := growFragment_spec memory context before f after
                offset data ok
                beforeOrdered beforeApart afterOrdered afterStarts bounded end_le (by omega)
                (by omega) longer room
              exact ⟨1, context', result, added⟩
            · rw [if_neg room, if_pos (by omega)]
              exact cutFragment_spec memory context before f after offset data ok ordered bounded ends
                end_le (by omega) (by omega) longer
          · have fits := fOk.fits
            rw [if_neg longer, if_neg (by omega)]
            obtain ⟨context', result, added⟩ := overwriteFragment_spec memory context before f
              after offset data 0 ok beforeOrdered beforeApart afterOrdered afterStarts bounded (by omega) (by omega)
            exact ⟨0, context', result, added⟩

end KcnTools.Cache
