import Mathlib.Data.List.Basic
import Mathlib.Data.List.Perm.Basic
import Mathlib.Data.List.Range

/-! The spanning cells of a table (table.c): their entries, an index of the entries in the order of span and
start, and the search in it. The columns and the rows of a table have one such table of spans each. -/

namespace KcnTools.W3m

structure SpanEntry where
  /-- `col` or `row` -/
  start : Nat
  /-- `colspan` or `rowspan` -/
  span : Nat
  /-- `minimum_width` or `height` -/
  size : Int
deriving DecidableEq

structure SpanTable where
  entries : List SpanEntry
  index : List Nat
deriving DecidableEq

namespace SpanTable

def keyAt (table : SpanTable) (base idx : Nat) : Nat :=
  match table.entries[idx]? with
  | some entry => entry.span * base + entry.start
  | none => 0

def key (table : SpanTable) (base place : Nat) : Nat :=
  match table.index[place]? with
  | some idx => table.keyAt base idx
  | none => 0

end SpanTable

def bsearchLoop (key : Nat → Nat) (e : Nat) : Nat → Nat → Nat → Nat
  | 0, k, _ => k
  | fuel + 1, k, n =>
    if n = 0 then k
    else
      let nn := n / 2
      let ne := key (k + nn)
      if ne = e then k + nn
      else if ne < e then bsearchLoop key e fuel (k + nn + 1) (n - (nn + 1))
      else bsearchLoop key e fuel k nn

def bsearch2short (span start base : Nat) (table : SpanTable) (nent : Nat) : Nat :=
  bsearchLoop (table.key base) (span * base + start) nent 0 nent

namespace SpanTable

def entryAt (table : SpanTable) (k span start : Nat) : Option Nat :=
  match table.index[k]? with
  | none => none
  | some i =>
    match table.entries[i]? with
    | none => none
    | some entry => if entry.start = start ∧ entry.span = span then some i else none

/-- The entry of the pair: the one there is, or else a new one, unless there are `limit` of them. -/
def register (table : SpanTable) (limit base span start : Nat) : SpanTable × Option Nat :=
  let nent := table.entries.length
  let k := bsearch2short span start base table nent
  match table.entryAt k span start with
  | some i => (table, some i)
  | none =>
    if nent < limit then
      (⟨table.entries ++ [⟨start, span, 0⟩], table.index.take k ++ nent :: table.index.drop k⟩, some nent)
    else (table, none)

def raise (table : SpanTable) (idx : Nat) (size : Int) : SpanTable :=
  { table with entries := table.entries.modify idx fun entry => { entry with size := max entry.size size } }

def pairs (table : SpanTable) : List (Nat × Nat) := table.entries.map fun entry => (entry.start, entry.span)

structure WellFormed (base : Nat) (table : SpanTable) : Prop where
  perm : table.index.Perm (List.range table.entries.length)
  sorted : (table.index.map (table.keyAt base)).Pairwise (· < ·)
  starts : ∀ entry ∈ table.entries, entry.start < base

variable {table : SpanTable} {base span start limit : Nat}

theorem WellFormed.length_eq (formed : WellFormed base table) : table.index.length = table.entries.length := by
  rw [formed.perm.length_eq, List.length_range]

theorem WellFormed.index_lt (formed : WellFormed base table) {idx : Nat} (member : idx ∈ table.index) :
    idx < table.entries.length :=
  List.mem_range.mp (formed.perm.mem_iff.mp member)

theorem key_eq (table : SpanTable) (base : Nat) {place : Nat} (inside : place < table.index.length) :
    table.key base place = table.keyAt base table.index[place] := by
  rw [key, List.getElem?_eq_getElem inside]

theorem WellFormed.key_lt (formed : WellFormed base table) {i j : Nat} (before : i < j)
    (inside : j < table.index.length) : table.key base i < table.key base j := by
  rw [key_eq table base inside, key_eq table base (Nat.lt_trans before inside)]
  exact List.pairwise_iff_getElem.mp (List.pairwise_map.mp formed.sorted) i j _ _ before

theorem empty_wellFormed (base : Nat) : WellFormed base ⟨[], []⟩ :=
  ⟨List.Perm.refl _, List.Pairwise.nil, fun _ member => absurd member List.not_mem_nil⟩

end SpanTable

theorem bsearchLoop_between {key : Nat → Nat} {e total : Nat} (sorted : ∀ i j, i < j → j < total → key i < key j) :
    ∀ fuel k n, n ≤ fuel → k + n ≤ total → (∀ j, j < k → key j < e) →
      (∀ j, k + n ≤ j → j < total → e < key j) →
      bsearchLoop key e fuel k n ≤ total ∧ (∀ j, j < bsearchLoop key e fuel k n → key j < e) ∧
        ∀ j, bsearchLoop key e fuel k n ≤ j → j < total → e ≤ key j := by
  intro fuel
  induction fuel with
  | zero =>
    intro k n enough inside below above
    exact ⟨by simpa [bsearchLoop] using Nat.le_trans (Nat.le_add_right k n) inside, below,
      fun j after bound => Nat.le_of_lt (above j (by simp only [bsearchLoop] at after; omega) bound)⟩
  | succ fuel ih =>
    intro k n enough inside below above
    rw [bsearchLoop]
    by_cases done : n = 0
    · rw [if_pos done]
      exact ⟨by omega, below, fun j after bound => Nat.le_of_lt (above j (by omega) bound)⟩
    · rw [if_neg done]
      by_cases found : key (k + n / 2) = e
      · rw [if_pos found]
        refine ⟨by omega, ?_, ?_⟩
        · intro j before
          rw [← found]
          exact sorted j _ before (by omega)
        · intro j after bound
          rcases Nat.lt_or_eq_of_le after with later | rfl
          · rw [← found]
            exact Nat.le_of_lt (sorted _ j later bound)
          · exact Nat.le_of_eq found.symm
      · rw [if_neg found]
        by_cases small : key (k + n / 2) < e
        · rw [if_pos small]
          refine ih _ _ (by omega) (by omega) ?_ fun j after bound => above j (by omega) bound
          intro j before
          rcases Nat.lt_or_eq_of_le (Nat.le_of_lt_succ before) with earlier | rfl
          · exact Nat.lt_trans (sorted j _ earlier (by omega)) small
          · exact small
        · rw [if_neg small]
          refine ih _ _ (by omega) (by omega) below ?_
          intro j after bound
          rcases Nat.lt_or_eq_of_le after with later | rfl
          · exact Nat.lt_of_le_of_lt (Nat.not_lt.mp small) (sorted _ j later bound)
          · omega

theorem pair_eq {base span start span' start' : Nat} (inside : start < base) (inside' : start' < base)
    (same : span * base + start = span' * base + start') : start = start' ∧ span = span' := by
  have rest := congrArg (· % base) same
  have whole := congrArg (· / base) same
  simp only [Nat.mul_add_mod', Nat.mod_eq_of_lt inside, Nat.mod_eq_of_lt inside'] at rest
  simp only [Nat.mul_comm _ base, Nat.mul_add_div (Nat.zero_lt_of_lt inside), Nat.div_eq_of_lt inside,
    Nat.div_eq_of_lt inside', Nat.add_zero] at whole
  exact ⟨rest, whole⟩

namespace SpanTable

variable {table : SpanTable} {base span start limit : Nat}

theorem mem_pairs : (start, span) ∈ table.pairs ↔
    ∃ entry ∈ table.entries, entry.start = start ∧ entry.span = span := by
  simp [pairs]

theorem WellFormed.entry (formed : WellFormed base table) {place : Nat} (inside : place < table.index.length) :
    ∃ idx entry, table.index[place]? = some idx ∧ table.entries[idx]? = some entry ∧
      table.key base place = entry.span * base + entry.start := by
  have bound := formed.index_lt (List.getElem_mem inside)
  refine ⟨_, _, List.getElem?_eq_getElem inside, List.getElem?_eq_getElem bound, ?_⟩
  simp only [key, List.getElem?_eq_getElem inside, keyAt, List.getElem?_eq_getElem bound]

theorem WellFormed.place (formed : WellFormed base table) {idx : Nat} {entry : SpanEntry}
    (found : table.entries[idx]? = some entry) : ∃ place, table.index[place]? = some idx ∧
      table.key base place = entry.span * base + entry.start := by
  obtain ⟨inside, _⟩ := List.getElem?_eq_some_iff.mp found
  obtain ⟨place, bound, here⟩ := List.getElem_of_mem (formed.perm.mem_iff.mpr (List.mem_range.mpr inside))
  have read : table.index[place]? = some idx := by rw [List.getElem?_eq_getElem bound, here]
  exact ⟨place, read, by simp only [key, read, keyAt, found]⟩

theorem WellFormed.between (formed : WellFormed base table) (span start : Nat) :
    bsearch2short span start base table table.entries.length ≤ table.index.length ∧
      (∀ j, j < bsearch2short span start base table table.entries.length → table.key base j < span * base + start) ∧
      ∀ j, bsearch2short span start base table table.entries.length ≤ j → j < table.index.length →
        span * base + start ≤ table.key base j := by
  rw [← formed.length_eq]
  exact bsearchLoop_between (fun i j => formed.key_lt) _ 0 _ (Nat.le_refl _) (by omega) (fun j none => by omega)
    fun j after bound => by omega

theorem entryAt_some {k idx : Nat} (found : table.entryAt k span start = some idx) : table.index[k]? = some idx ∧
    ∃ entry, table.entries[idx]? = some entry ∧ entry.start = start ∧ entry.span = span := by
  rw [entryAt] at found
  split at found
  · exact absurd found (by simp)
  · rename_i i placed
    split at found
    · exact absurd found (by simp)
    · rename_i entry here
      split at found
      · rename_i same
        rw [Option.some.injEq] at found
        subst found
        exact ⟨placed, entry, here, same⟩
      · exact absurd found (by simp)

theorem WellFormed.entryAt_of_mem (formed : WellFormed base table)
    (member : (start, span) ∈ table.pairs) :
    ∃ idx, table.entryAt (bsearch2short span start base table table.entries.length) span start = some idx := by
  obtain ⟨entry, listed, starts, spans⟩ := mem_pairs.mp member
  obtain ⟨idx, here⟩ := List.mem_iff_getElem?.mp listed
  obtain ⟨place, read, sought⟩ := formed.place here
  obtain ⟨bound, _⟩ := List.getElem?_eq_some_iff.mp read
  obtain ⟨_, below, above⟩ := formed.between span start
  rw [starts, spans] at sought
  generalize bsearch2short span start base table table.entries.length = k at below above
  have here_k : k = place := by
    rcases Nat.lt_trichotomy k place with before | same | behind
    · have := formed.key_lt before bound
      have := above k (Nat.le_refl k) (Nat.lt_trans before bound)
      omega
    · exact same
    · have := below place behind
      omega
  refine ⟨idx, ?_⟩
  rw [here_k, entryAt, read]
  simp only [here]
  exact if_pos ⟨starts, spans⟩

theorem WellFormed.above_of_not_mem (formed : WellFormed base table) (inside : start < base)
    (absent : (start, span) ∉ table.pairs) {j : Nat}
    (after : bsearch2short span start base table table.entries.length ≤ j) (bound : j < table.index.length) :
    span * base + start < table.key base j := by
  refine Nat.lt_of_le_of_ne ((formed.between span start).2.2 j after bound) ?_
  intro same
  obtain ⟨idx, entry, _, found, sought⟩ := formed.entry bound
  obtain ⟨starts, spans⟩ := pair_eq inside (formed.starts entry (List.mem_of_getElem? found)) (same.trans sought)
  exact absent (mem_pairs.mpr ⟨entry, List.mem_of_getElem? found, starts.symm, spans.symm⟩)

def addPair (limit : Nat) (pairs : List (Nat × Nat)) (pair : Nat × Nat) : List (Nat × Nat) :=
  if pair ∈ pairs ∨ limit ≤ pairs.length then pairs else pairs ++ [pair]

theorem keyAt_append (entry : SpanEntry) (index : List Nat) {idx : Nat} (inside : idx < table.entries.length) :
    keyAt ⟨table.entries ++ [entry], index⟩ base idx = table.keyAt base idx := by
  rw [keyAt, keyAt, List.getElem?_append_left inside]

theorem WellFormed.insert (formed : WellFormed base table) (inside : start < base)
    (absent : (start, span) ∉ table.pairs) (size : Int) :
    WellFormed base ⟨table.entries ++ [⟨start, span, size⟩],
      table.index.take (bsearch2short span start base table table.entries.length) ++ table.entries.length ::
        table.index.drop (bsearch2short span start base table table.entries.length)⟩ := by
  have above := fun j => @WellFormed.above_of_not_mem table base span start formed inside absent j
  obtain ⟨bounded, below, _⟩ := formed.between span start
  generalize bsearch2short span start base table table.entries.length = k at bounded below above
  have same : ∀ idx ∈ table.index, keyAt ⟨table.entries ++ [⟨start, span, size⟩],
      table.index.take k ++ table.entries.length :: table.index.drop k⟩ base idx = table.keyAt base idx :=
    fun idx member => keyAt_append _ _ (formed.index_lt member)
  refine ⟨?_, ?_, ?_⟩
  · simp only [List.length_append, List.length_singleton, List.range_succ]
    refine List.perm_middle.trans ?_
    rw [List.take_append_drop]
    exact (List.Perm.cons _ formed.perm).trans (List.perm_append_singleton _ _).symm
  · have new : keyAt ⟨table.entries ++ [⟨start, span, size⟩],
        table.index.take k ++ table.entries.length :: table.index.drop k⟩ base table.entries.length =
          span * base + start := by
      simp [keyAt]
    have early : (table.index.take k).map (keyAt ⟨table.entries ++ [⟨start, span, size⟩],
        table.index.take k ++ table.entries.length :: table.index.drop k⟩ base) =
          (table.index.map (table.keyAt base)).take k := by
      rw [← List.map_take]
      exact List.map_congr_left fun idx member => same idx (List.mem_of_mem_take member)
    have late : (table.index.drop k).map (keyAt ⟨table.entries ++ [⟨start, span, size⟩],
        table.index.take k ++ table.entries.length :: table.index.drop k⟩ base) =
          (table.index.map (table.keyAt base)).drop k := by
      rw [← List.map_drop]
      exact List.map_congr_left fun idx member => same idx (List.mem_of_mem_drop member)
    rw [List.map_append, List.map_cons, early, late, new]
    have whole := formed.sorted
    rw [← List.take_append_drop k (table.index.map (table.keyAt base)), List.pairwise_append] at whole
    obtain ⟨front, back, across⟩ := whole
    rw [List.pairwise_append, List.pairwise_cons]
    have behind : ∀ value ∈ (table.index.map (table.keyAt base)).drop k, span * base + start < value := by
      intro value member
      obtain ⟨place, bound, rfl⟩ := List.getElem_of_mem member
      rw [List.length_drop, List.length_map] at bound
      rw [List.getElem_drop, List.getElem_map, ← key_eq table base (by omega)]
      exact above _ (by omega) (by omega)
    have before : ∀ value ∈ (table.index.map (table.keyAt base)).take k, value < span * base + start := by
      intro value member
      obtain ⟨place, bound, rfl⟩ := List.getElem_of_mem member
      rw [List.length_take, List.length_map] at bound
      rw [List.getElem_take, List.getElem_map, ← key_eq table base (by omega)]
      exact below _ (by omega)
    refine ⟨front, ⟨behind, back⟩, ?_⟩
    intro first early second late
    rcases List.mem_cons.mp late with rfl | late
    · exact before first early
    · exact across first early second late
  · intro entry member
    rcases List.mem_append.mp member with old | new
    · exact formed.starts entry old
    · rw [List.mem_singleton.mp new]
      exact inside

/-- Registering a pair keeps the order of the index, and gives the entry of the pair, if there is room for it. -/
theorem WellFormed.register (formed : WellFormed base table) (inside : start < base) (limit span : Nat) :
    WellFormed base (table.register limit base span start).1 ∧
      (table.register limit base span start).1.pairs = addPair limit table.pairs (start, span) ∧
      (∀ idx, (table.register limit base span start).2 = some idx → ∃ entry,
        (table.register limit base span start).1.entries[idx]? = some entry ∧ entry.start = start ∧
          entry.span = span) ∧
      (((table.register limit base span start).1 = table) ∨
        (table.register limit base span start).1.entries = table.entries ++ [⟨start, span, 0⟩]) ∧
      ((table.register limit base span start).2 = none → limit ≤ table.entries.length ∧
        (start, span) ∉ table.pairs) := by
  rw [SpanTable.register]
  cases found : table.entryAt (bsearch2short span start base table table.entries.length) span start with
  | some idx =>
    obtain ⟨_, entry, here, same⟩ := entryAt_some found
    have member : (start, span) ∈ table.pairs := mem_pairs.mpr ⟨entry, List.mem_of_getElem? here, same⟩
    simp only [addPair, if_pos (Or.inl member)]
    refine ⟨formed, trivial, ?_, Or.inl trivial, fun impossible => absurd impossible (by simp)⟩
    intro other equal
    rw [← Option.some.inj equal]
    exact ⟨entry, here, same⟩
  | none =>
    have absent : (start, span) ∉ table.pairs := by
      intro member
      obtain ⟨idx, impossible⟩ := formed.entryAt_of_mem member
      rw [found] at impossible
      exact absurd impossible (by simp)
    have count : table.pairs.length = table.entries.length := List.length_map _
    by_cases room : table.entries.length < limit
    · simp only [if_pos room]
      refine ⟨formed.insert inside absent 0, ?_, ?_, Or.inr trivial, fun impossible => absurd impossible (by simp)⟩
      · rw [addPair, if_neg (not_or.mpr ⟨absent, by omega⟩)]
        simp [pairs]
      · intro other equal
        rw [← Option.some.inj equal]
        exact ⟨⟨start, span, 0⟩, by simp, rfl, rfl⟩
    · simp only [if_neg room]
      refine ⟨formed, ?_, fun other impossible => absurd impossible (by simp), Or.inl trivial, fun _ =>
        ⟨Nat.not_lt.mp room, absent⟩⟩
      rw [addPair, if_pos (Or.inr (by omega))]

theorem raise_pairs (table : SpanTable) (idx : Nat) (size : Int) : (table.raise idx size).pairs = table.pairs := by
  apply List.ext_getElem?
  intro place
  simp only [raise, pairs, List.getElem?_map, List.getElem?_modify]
  cases table.entries[place]? with
  | none => rfl
  | some entry => by_cases same : idx = place <;> simp [same]

theorem raise_keyAt (table : SpanTable) (idx : Nat) (size : Int) (base : Nat) :
    (table.raise idx size).keyAt base = table.keyAt base := by
  funext place
  simp only [raise, keyAt, List.getElem?_modify]
  cases table.entries[place]? with
  | none => rfl
  | some entry => by_cases same : idx = place <;> simp [same]

theorem WellFormed.raise (formed : WellFormed base table) (idx : Nat) (size : Int) :
    WellFormed base (table.raise idx size) where
  perm := by
    have count : (table.raise idx size).entries.length = table.entries.length := List.length_modify _ _ _
    rw [count]
    exact formed.perm
  sorted := by
    rw [raise_keyAt]
    exact formed.sorted
  starts := by
    intro entry member
    have listed : (entry.start, entry.span) ∈ (table.raise idx size).pairs :=
      mem_pairs.mpr ⟨entry, member, rfl, rfl⟩
    rw [raise_pairs] at listed
    obtain ⟨other, old, same, _⟩ := mem_pairs.mp listed
    rw [← same]
    exact formed.starts other old

end SpanTable

end KcnTools.W3m
