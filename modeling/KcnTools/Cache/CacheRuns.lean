import KcnTools.Lib.Run
import KcnTools.Cache.CacheOperations
import KcnTools.Cache.CacheDefragment
import Mathlib

/-! Whole runs of cache operations: the fragment lists stay ordered and inside their
blocks, and the sizes of the entries and of the cache follow the fragments. -/

namespace KcnTools.Cache

def StepFits (context : CacheContext) : CacheOp → Prop
  | .getCacheFragment memory => DefragFits memory context.entry
  | _ => True

/-- The new data starts inside the first fragment that reaches its offset, and runs past
the end of that fragment's block. -/
def CutsFragment (fragments : List Fragment) (offset length : Int) : Prop :=
  ∃ before f after, fragments = before ++ f :: after ∧ (∀ g ∈ before, g.endOffset < offset) ∧
    f.offset ≤ offset ∧ offset < f.endOffset ∧ f.realLength < offset + length - f.offset

def StepCounts (context : CacheContext) : CacheOp → Prop
  | .addFragment _ offset data => ¬CutsFragment context.entry.frag offset data.length
  | op => StepFits context op

theorem cutBytes_ne_zero {offset length : Int} {fragments : List Fragment}
    (cut : cutBytes offset length fragments ≠ 0) : CutsFragment fragments offset length := by
  induction fragments with
  | nil => exact absurd rfl cut
  | cons f rest ih =>
      simp only [cutBytes] at cut
      split at cut
      · exact absurd rfl cut
      · split at cut
        · obtain ⟨before, g, after, split, ends, inside⟩ := ih cut
          refine ⟨f :: before, g, after, by rw [split]; rfl, ?_, inside⟩
          intro h member
          rcases List.mem_cons.mp member with rfl | later
          · assumption
          · exact ends h later
        · split at cut
          · exact ⟨[], f, rest, rfl, by simp, by omega, by omega, by omega⟩
          · exact absurd rfl cut

theorem step_valid {context : CacheContext} {op : CacheOp} (valid : EntryOk context.entry)
    (fits : StepFits context op) :
    ∃ context', step context op = some context' ∧ EntryOk context'.entry := by
  cases op with
  | addFragment memory offset data =>
      obtain ⟨ret, context', result, added⟩ := addFragment_spec memory offset data valid
      exact ⟨context', by rw [step, result]; rfl, added.valid⟩
  | getCacheFragment memory =>
      obtain ⟨result, context', found, got⟩ := getCacheFragment_spec memory valid fits
      exact ⟨context', by rw [step, found]; rfl, got.valid⟩
  | freeEntryTo offset =>
      obtain ⟨context', result, ok, _⟩ := freeEntryTo_spec offset valid
      exact ⟨context', result, ok⟩
  | truncateEntry memory offset final =>
      exact ⟨_, rfl, (truncateEntry_spec memory context offset final valid).1⟩
  | normalizeCacheEntry memory truncateLength =>
      exact ⟨_, rfl, (normalizeCacheEntry_spec memory truncateLength valid).1⟩
  | deleteEntryContent => exact ⟨_, rfl, (deleteEntryContent_spec context).1⟩

/-- One entry's share of the accounting: its size is that of its fragments, and the
cache has grown with it. -/
structure Counted (context context' : CacheContext) : Prop where
  dataSize : context'.entry.dataSize = totalLength context'.entry.frag
  cacheSize : context'.cacheSize - context'.entry.dataSize =
    context.cacheSize - context.entry.dataSize

theorem Counted.of_enlarged {context context' : CacheContext}
    (counted : context.entry.dataSize = totalLength context.entry.frag) {size : Int}
    (enlarged : Enlarged context context' size)
    (total : totalLength context'.entry.frag = totalLength context.entry.frag + size) :
    Counted context context' := by
  have sizes := enlarged.dataSize
  have caches := enlarged.cacheSize
  constructor <;> omega

theorem Counted.of_accounts {context context' : CacheContext}
    (counted : context.entry.dataSize = totalLength context.entry.frag)
    (accounts : Accounts context context') : Counted context context' :=
  .of_enlarged counted (accounts (by omega)) (by omega)

theorem step_counted (context : CacheContext) {op : CacheOp} (valid : EntryOk context.entry)
    (counted : context.entry.dataSize = totalLength context.entry.frag)
    (counts : StepCounts context op) :
    ∃ context', step context op = some context' ∧ EntryOk context'.entry ∧
      Counted context context' := by
  cases op with
  | addFragment memory offset data =>
      obtain ⟨ret, context', result, added⟩ := addFragment_spec memory offset data valid
      have lost : cutBytes offset data.length context.entry.frag = 0 := by
        by_contra cut
        exact counts (cutBytes_ne_zero cut)
      exact ⟨context', by rw [step, result]; rfl, added.valid,
        .of_enlarged counted (added.enlarged (by omega)) (by omega)⟩
  | getCacheFragment memory =>
      obtain ⟨result, context', found, got⟩ := getCacheFragment_spec memory valid counts
      have total := got.total
      exact ⟨context', by rw [step, found]; rfl, got.valid,
        .of_enlarged counted got.enlarged (by omega)⟩
  | freeEntryTo offset =>
      obtain ⟨context', result, ok, accounts, _⟩ := freeEntryTo_spec offset valid
      exact ⟨context', result, ok, .of_accounts counted accounts⟩
  | truncateEntry memory offset final =>
      obtain ⟨ok, accounts, _⟩ := truncateEntry_spec memory context offset final valid
      exact ⟨_, rfl, ok, .of_accounts counted accounts⟩
  | normalizeCacheEntry memory truncateLength =>
      obtain ⟨ok, accounts⟩ := normalizeCacheEntry_spec memory truncateLength valid
      exact ⟨_, rfl, ok, .of_accounts counted accounts⟩
  | deleteEntryContent =>
      obtain ⟨ok, enlarged, nothing⟩ := deleteEntryContent_spec context
      refine ⟨_, rfl, ok, .of_enlarged counted enlarged ?_⟩
      rw [nothing, totalLength_nil]
      omega

/-! Concrete runs. -/

def generousAllocator : Allocator where
  alloc size := decide (0 < size ∧ size < 2 ^ 63)
  realloc _ size := decide (0 < size ∧ size < 2 ^ 63)
  refuses size large := by
    rw [decide_eq_false_iff_not]
    omega

theorem addFragment_first (memory : Allocator) (context : CacheContext) (data : List UInt8)
    (empty : context.entry.frag = []) (nonempty : data ≠ [])
    (granted : memory.alloc (fragSize (cachePad data.length)) = true) :
    ∃ bytes context', addFragment memory context 0 data = some (1, context') ∧
      context'.entry.frag = [⟨0, data.length, cachePad data.length, bytes⟩] := by
  obtain ⟨_, bytes, written, _⟩ := cachePad_write data
  refine ⟨bytes, (enlargeEntry (extendEntry context (0 + data.length)) data.length).setFrag
    [⟨0, data.length, cachePad data.length, bytes⟩], ?_, rfl⟩
  rw [addFragment, if_neg (by simpa using nonempty)]
  simp only [empty, addFragmentLoop, insertFragment, fragAlloc, granted, ↓reduceIte, written,
    Option.bind_eq_bind, Option.bind_some, removeOverlaps, Bool.false_eq_true, List.nil_append]

theorem addFragment_behind (memory : Allocator) {context : CacheContext} {f : Fragment}
    {data : List UInt8} (list : context.entry.frag = [f]) (nonnegative : 0 ≤ f.length)
    (nonempty : data ≠ []) (full : f.realLength < f.length + data.length)
    (granted : memory.alloc (fragSize (cachePad data.length)) = true) :
    ∃ bytes context', addFragment memory context f.endOffset data = some (1, context') ∧
      context'.entry.frag = [f, ⟨f.endOffset, data.length, cachePad data.length, bytes⟩] := by
  have positive := List.length_pos_of_ne_nil nonempty
  obtain ⟨_, bytes, written, _⟩ := cachePad_write data
  have same : ({ f with length := f.endOffset - f.offset } : Fragment) = f := by
    rw [show f.endOffset - f.offset = f.length by rw [Fragment.endOffset]; omega]
  refine ⟨bytes, (enlargeEntry (extendEntry context (f.endOffset + data.length))
    data.length).setFrag [f, ⟨f.endOffset, data.length, cachePad data.length, bytes⟩], ?_, rfl⟩
  rw [addFragment, if_neg (by simpa using nonempty), list, addFragmentLoop,
    if_neg (by simp only [Fragment.endOffset]; omega),
    if_neg (by simp only [Fragment.endOffset]; omega),
    if_pos (by simp only [Fragment.endOffset]; omega),
    if_neg (by simp only [Fragment.endOffset]; omega), same]
  simp only [insertFragment, fragAlloc, granted, ↓reduceIte, written,
    Option.bind_eq_bind, Option.bind_some, removeOverlaps, Bool.false_eq_true, List.nil_append,
    List.cons_append]

theorem addFragment_valid (memory : Allocator) {context context' : CacheContext} {offset ret : Int}
    {data : List UInt8} (valid : EntryOk context.entry)
    (added : addFragment memory context offset data = some (ret, context')) :
    EntryOk context'.entry := by
  obtain ⟨_, _, same, spec⟩ := addFragment_spec memory offset data valid
  rw [added, Option.some.injEq, Prod.mk.injEq] at same
  obtain ⟨rfl, rfl⟩ := same
  exact spec.valid

/-- Two halves of 2 GiB, one behind the other, have the length 0 in an `int`. -/
theorem twoHalves_none {data : List UInt8} (length : data.length = 2 ^ 31) :
    Run.run step ⟨emptyEntry 0, 0, 1⟩ [.addFragment generousAllocator 0 data,
      .addFragment generousAllocator (2 ^ 31) data, .getCacheFragment generousAllocator] = none := by
  have nonempty : data ≠ [] := List.ne_nil_of_length_pos (by rw [length]; decide)
  have granted : generousAllocator.alloc (fragSize (cachePad data.length)) = true := by
    rw [length]
    decide
  obtain ⟨bytes, context, first, frag⟩ := addFragment_first generousAllocator
    ⟨emptyEntry 0, 0, 1⟩ data rfl nonempty granted
  have valid := addFragment_valid generousAllocator (emptyEntry_ok 0) first
  have place : Fragment.endOffset ⟨0, data.length, cachePad data.length, bytes⟩ = 2 ^ 31 := by
    simp only [Fragment.endOffset, length]
    decide
  obtain ⟨more, whole, second, frag⟩ := addFragment_behind generousAllocator frag (by simp only; omega)
    nonempty (by simp only; rw [length]; decide) granted
  have valid := addFragment_valid generousAllocator valid second
  have fault := getCacheFragment_fault generousAllocator valid (by
    intro fits
    have pair := fits _ (defragments_pair valid frag rfl rfl)
    simp only [length] at pair
    exact absurd pair (by decide))
  rw [place] at second
  simp only [Run.run_cons, step, first, second, fault, Option.map_some, Option.map_none,
    Option.bind_some, Option.bind_none]

/-! The fragment lists of one entry. -/

theorem fragmentList_run (id cacheSize idCounter : Int) (ops : List CacheOp)
    (fits : Run.Admitted step StepFits ⟨emptyEntry id, cacheSize, idCounter⟩ ops) :
    ∃ context, Run.run step ⟨emptyEntry id, cacheSize, idCounter⟩ ops = some context ∧
      EntryOk context.entry ∧ context.entry.frag.Pairwise fun f g => f.offset ≤ g.offset := by
  obtain ⟨context, reached, valid⟩ := Run.run_invariant
    (fun context : CacheContext => EntryOk context.entry)
    (fun context op valid fits => step_valid valid fits) (emptyEntry_ok id) fits
  exact ⟨context, reached, valid, valid.sorted⟩

theorem fragmentList_run_twoHalves : ¬∃ context, Run.run step ⟨emptyEntry 0, 0, 1⟩
      [.addFragment generousAllocator 0 (List.replicate (2 ^ 31) 0),
        .addFragment generousAllocator (2 ^ 31) (List.replicate (2 ^ 31) 0),
        .getCacheFragment generousAllocator] = some context ∧
    EntryOk context.entry ∧ context.entry.frag.Pairwise fun f g => f.offset ≤ g.offset := by
  rintro ⟨context, reached, _⟩
  rw [twoHalves_none List.length_replicate] at reached
  exact absurd reached (by simp)

theorem fragmentList_run_add : ∃ context, Run.run step ⟨emptyEntry 0, 0, 1⟩
      [.getCacheFragment generousAllocator, .addFragment generousAllocator 0 [1, 2, 3],
        .freeEntryTo 1, .normalizeCacheEntry generousAllocator 2] = some context ∧
    EntryOk context.entry ∧ context.entry.frag.Pairwise fun f g => f.offset ≤ g.offset := by
  apply fragmentList_run
  refine ⟨?_, fun _ _ => ⟨trivial, fun _ _ => ⟨trivial, fun _ _ => ⟨trivial, fun _ _ => trivial⟩⟩⟩⟩
  rintro count ⟨⟨first, second, rest, impossible, _⟩, _⟩
  exact absurd impossible (by simp [emptyEntry])

/-! The cache as a whole. -/

structure CacheState where
  cacheEntries : List CacheEntry
  cacheSize : Int
  idCounter : Int
  deriving DecidableEq

def initCache : CacheState := { cacheEntries := [], cacheSize := 0, idCounter := 0 }

inductive StateOp
  | getCacheEntry
  | onEntry (index : Nat) (op : CacheOp)
  | deleteCacheEntry (index : Nat)

def CacheState.context (state : CacheState) (entry : CacheEntry) : CacheContext :=
  { entry, cacheSize := state.cacheSize, idCounter := state.idCounter }

/-- `get_cache_entry` adds an empty entry in front; an operation on an entry that is not
there leaves the cache as it is. -/
def stepState (state : CacheState) : StateOp → Option CacheState
  | .getCacheEntry => some { state with
      cacheEntries := emptyEntry state.idCounter :: state.cacheEntries
      idCounter := state.idCounter + 1 }
  | .onEntry index op =>
      match state.cacheEntries[index]? with
      | none => some state
      | some entry => (step (state.context entry) op).map fun context =>
          { cacheEntries := state.cacheEntries.set index context.entry
            cacheSize := context.cacheSize
            idCounter := context.idCounter }
  | .deleteCacheEntry index =>
      match state.cacheEntries[index]? with
      | none => some state
      | some entry =>
          let context := deleteEntryContent (state.context entry)
          some { cacheEntries := state.cacheEntries.eraseIdx index
                 cacheSize := context.cacheSize
                 idCounter := context.idCounter }

def sumDataSize (entries : List CacheEntry) : Int := (entries.map CacheEntry.dataSize).sum

/-- Each entry has the size of its fragments, and the cache that of its entries. -/
structure Accounted (state : CacheState) : Prop where
  dataSize : ∀ entry ∈ state.cacheEntries, entry.dataSize = totalLength entry.frag
  cacheSize : state.cacheSize = sumDataSize state.cacheEntries

def EntryStepCounts (state : CacheState) : StateOp → Prop
  | .onEntry index op =>
      ∀ entry, state.cacheEntries[index]? = some entry → StepCounts (state.context entry) op
  | _ => True

theorem sumDataSize_set {entries : List CacheEntry} {index : Nat} {entry : CacheEntry}
    (found : entries[index]? = some entry) (entry' : CacheEntry) :
    sumDataSize (entries.set index entry') =
      sumDataSize entries - entry.dataSize + entry'.dataSize := by
  induction entries generalizing index with
  | nil => simp at found
  | cons first rest ih =>
      cases index with
      | zero =>
          rw [List.getElem?_cons_zero, Option.some.injEq] at found
          subst found
          simp only [sumDataSize, List.set_cons_zero, List.map_cons, List.sum_cons]
          omega
      | succ index =>
          rw [List.getElem?_cons_succ] at found
          have tail := ih found
          simp only [sumDataSize, List.set_cons_succ, List.map_cons, List.sum_cons] at tail ⊢
          omega

theorem sumDataSize_eraseIdx {entries : List CacheEntry} {index : Nat} {entry : CacheEntry}
    (found : entries[index]? = some entry) :
    sumDataSize (entries.eraseIdx index) = sumDataSize entries - entry.dataSize := by
  induction entries generalizing index with
  | nil => simp at found
  | cons first rest ih =>
      cases index with
      | zero =>
          rw [List.getElem?_cons_zero, Option.some.injEq] at found
          subst found
          simp only [sumDataSize, List.eraseIdx_cons_zero, List.map_cons, List.sum_cons]
          omega
      | succ index =>
          rw [List.getElem?_cons_succ] at found
          have tail := ih found
          simp only [sumDataSize, List.eraseIdx_cons_succ, List.map_cons, List.sum_cons] at tail ⊢
          omega

theorem stepState_onEntry (state : CacheState) (index : Nat) (op : CacheOp) {entry : CacheEntry}
    {context : CacheContext} (found : state.cacheEntries[index]? = some entry)
    (stepped : step (state.context entry) op = some context) :
    stepState state (.onEntry index op) = some
      { cacheEntries := state.cacheEntries.set index context.entry
        cacheSize := context.cacheSize
        idCounter := context.idCounter } := by
  simp only [stepState, found, stepped, Option.map_some]

theorem stepState_accounted {state : CacheState} {op : StateOp}
    (invariant : (∀ entry ∈ state.cacheEntries, EntryOk entry) ∧ Accounted state)
    (counts : EntryStepCounts state op) :
    ∃ state', stepState state op = some state' ∧
      (∀ entry ∈ state'.cacheEntries, EntryOk entry) ∧ Accounted state' := by
  obtain ⟨valid, accounted⟩ := invariant
  have total := accounted.cacheSize
  cases op with
  | getCacheEntry =>
      refine ⟨_, rfl, ?_, ?_, ?_⟩
      · intro entry member
        rcases List.mem_cons.mp member with rfl | older
        · exact emptyEntry_ok _
        · exact valid entry older
      · intro entry member
        rcases List.mem_cons.mp member with rfl | older
        · rfl
        · exact accounted.dataSize entry older
      · simp only [sumDataSize, List.map_cons, List.sum_cons, emptyEntry, Int.zero_add]
        exact total
  | onEntry index op =>
      cases found : state.cacheEntries[index]? with
      | none => exact ⟨state, by simp [stepState, found], valid, accounted⟩
      | some entry =>
          have member := List.mem_of_getElem? found
          obtain ⟨context', stepped, ok, counted⟩ := step_counted
            (state.context entry) (valid entry member)
            (accounted.dataSize entry member) (counts entry found)
          refine ⟨_, stepState_onEntry state index op found stepped, ?_, ?_, ?_⟩
          · intro other inside
            rcases List.mem_or_eq_of_mem_set inside with older | rfl
            · exact valid other older
            · exact ok
          · intro other inside
            rcases List.mem_or_eq_of_mem_set inside with older | rfl
            · exact accounted.dataSize other older
            · exact counted.dataSize
          · have shares := counted.cacheSize
            simp only [CacheState.context] at shares
            rw [sumDataSize_set found]
            simp only
            omega
  | deleteCacheEntry index =>
      cases found : state.cacheEntries[index]? with
      | none => exact ⟨state, by simp [stepState, found], valid, accounted⟩
      | some entry =>
          have caches := (deleteEntryContent_spec (state.context entry)).2.1.cacheSize
          refine ⟨_, by simp only [stepState, found]; rfl, ?_, ?_, ?_⟩
          · intro other inside
            exact valid other (List.mem_of_mem_eraseIdx inside)
          · intro other inside
            exact accounted.dataSize other (List.mem_of_mem_eraseIdx inside)
          · simp only [CacheState.context] at caches
            rw [sumDataSize_eraseIdx found]
            simp only [CacheState.context]
            omega

theorem accounted_run (ops : List StateOp)
    (counts : Run.Admitted stepState EntryStepCounts initCache ops) :
    ∃ state, Run.run stepState initCache ops = some state ∧ Accounted state := by
  obtain ⟨state, reached, _, accounted⟩ := Run.run_invariant
    (fun state : CacheState =>
      (∀ entry ∈ state.cacheEntries, EntryOk entry) ∧ Accounted state)
    (fun state op invariant counts => stepState_accounted invariant counts)
    ⟨by simp [initCache], by simp [initCache], rfl⟩ counts
  exact ⟨state, reached, accounted⟩

theorem accounted_run_add : ∃ state, Run.run stepState initCache [.getCacheEntry,
    .onEntry 0 (.addFragment generousAllocator 0 [1, 2, 3]), .onEntry 0 (.freeEntryTo 1),
    .getCacheEntry, .deleteCacheEntry 1] = some state ∧ Accounted state := by
  apply accounted_run
  refine ⟨trivial, ?_⟩
  rintro _ ⟨⟩
  refine ⟨?_, fun _ _ => ⟨fun _ _ => trivial, fun _ _ => ⟨trivial, fun _ _ => ⟨trivial, fun _ _ => trivial⟩⟩⟩⟩
  rintro entry ⟨⟩ ⟨before, f, after, impossible, _⟩
  exact absurd impossible (by simp [CacheState.context, emptyEntry])

theorem cutFragment_drifts (memory : Allocator) {context context' : CacheContext} {offset ret : Int}
    {data : List UInt8} (valid : EntryOk context.entry)
    (counted : context.entry.dataSize = totalLength context.entry.frag)
    (added : addFragment memory context offset data = some (ret, context')) :
    context'.entry.dataSize = totalLength context'.entry.frag +
      cutBytes offset data.length context.entry.frag := by
  obtain ⟨_, _, same, spec⟩ := addFragment_spec memory offset data valid
  rw [added, Option.some.injEq, Prod.mk.injEq] at same
  obtain ⟨rfl, rfl⟩ := same
  have sizes := (spec.enlarged (by omega)).dataSize
  omega

/-- New data that starts in a fragment of three bytes and is larger than its block: the
two bytes that are cut off stay in the sizes. -/
theorem cutFragment_unaccounted (start data : List UInt8) (short : start.length = 3)
    (length : data.length = 16384) :
    ∃ state, Run.run stepState initCache [.getCacheEntry,
      .onEntry 0 (.addFragment generousAllocator 0 start),
      .onEntry 0 (.addFragment generousAllocator 1 data)] = some state ∧ ¬Accounted state := by
  obtain ⟨bytes, context, first, frag⟩ := addFragment_first generousAllocator
    ⟨emptyEntry 0, 0, 1⟩ start rfl
    (List.ne_nil_of_length_pos (by omega)) (by rw [short]; decide)
  have valid := addFragment_valid generousAllocator (emptyEntry_ok 0) first
  have counted := cutFragment_drifts generousAllocator (emptyEntry_ok 0) rfl first
  rw [show cutBytes 0 start.length (emptyEntry 0).frag = 0 from rfl, Int.add_zero] at counted
  obtain ⟨ret, after, second, _⟩ := addFragment_spec generousAllocator 1 data valid
  have drift := cutFragment_drifts generousAllocator valid counted second
  have lost : cutBytes 1 data.length [⟨0, start.length, cachePad start.length, bytes⟩] = 2 := by
    rw [length, short]
    simp [cutBytes, Fragment.endOffset, cachePad]
  rw [frag, lost] at drift
  have firstStep := stepState_onEntry ⟨[emptyEntry 0], 0, 1⟩ 0
    (.addFragment generousAllocator 0 start) rfl (congrArg (Option.map Prod.snd) first)
  have secondStep := stepState_onEntry
    ⟨[context.entry], context.cacheSize, context.idCounter⟩ 0
    (.addFragment generousAllocator 1 data) rfl (congrArg (Option.map Prod.snd) second)
  refine ⟨⟨[after.entry], after.cacheSize, after.idCounter⟩, ?_, ?_⟩
  · rw [Run.run_cons, show stepState initCache .getCacheEntry = some ⟨[emptyEntry 0], 0, 1⟩ from rfl,
      Option.bind_some, Run.run_cons, firstStep, Option.bind_some, Run.run_cons]
    exact congrArg (Option.bind · fun state => Run.run stepState state []) secondStep
  · intro accounted
    have size := accounted.dataSize after.entry (by simp)
    omega

theorem accounted_run_cut : ¬∀ ops : List StateOp, ∃ state,
    Run.run stepState initCache ops = some state ∧ Accounted state := by
  intro all
  obtain ⟨state, reached, unaccounted⟩ :=
    cutFragment_unaccounted [1, 2, 3] (List.replicate 16384 7) rfl
      List.length_replicate
  obtain ⟨other, same, accounted⟩ := all _
  rw [reached, Option.some.injEq] at same
  exact unaccounted (same ▸ accounted)

end KcnTools.Cache
