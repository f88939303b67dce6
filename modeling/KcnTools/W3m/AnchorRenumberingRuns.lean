import KcnTools.W3m.AnchorRenumbering

/-!
The run of `reseqAnchor`: the loop over the links, the markers, and what the buffer is then.
-/

namespace KcnTools.Anchors

open MergeRanks

section Run

variable (page : NumberedBuffer)

def NumberedBuffer.total : Nat := page.buffer.nmark + page.buffer.href.countP isNew

def NumberedBuffer.markOf (j : Nat) : Option BufferPoint :=
  if j < page.buffer.nmark then (page.buffer.marks[j]?).join
  else (page.buffer.href.filter isNew)[j - page.buffer.nmark]?.map (·.start)

structure Placed (places : List Nat) (ml : HmarkerList) (put : Nat → Prop) : Prop where
  small : ml.marks.length ≤ page.total
  placed : ∀ j, put j → ml.marks[rank page.buffer.nmark places j]? = some (page.markOf j)

variable {page}

theorem Placed.put {places : List Nat} {ml : HmarkerList} {put : Nat → Prop} {j : Nat} (placed : Placed page places ml put)
    (sorted : places.Pairwise (· ≤ ·)) (inside : ∀ p ∈ places, p ≤ page.buffer.nmark)
    (room : page.buffer.nmark + places.length ≤ page.total) (earlier : ∀ i, put i → i < page.buffer.nmark + places.length)
    (here : j < page.buffer.nmark + places.length) :
    ∃ ml', putHmarker ml (page.markOf j) (rank page.buffer.nmark places j) = some ml' ∧
      Placed page places ml' fun i => put i ∨ i = j := by
  obtain ⟨ml', done, new, length, others⟩ := putHmarker_nat ml (page.markOf j) (rank page.buffer.nmark places j)
  have small := placed.small
  have below := rank_lt inside here
  refine ⟨ml', done, ⟨by omega, fun i which => ?_⟩⟩
  by_cases same : i = j
  · rw [same, new]
  · have before := which.resolve_right same
    exact others _ _ (fun equal => same (rank_injective sorted (earlier i before) here equal)) (placed.placed i before)

theorem Placed.concat {places : List Nat} {ml : HmarkerList} {place : Nat}
    (placed : Placed page places ml fun i => page.buffer.nmark ≤ i ∧ i < page.buffer.nmark + places.length) :
    Placed page (places ++ [place]) ml fun i => page.buffer.nmark ≤ i ∧ i < page.buffer.nmark + places.length := by
  refine ⟨placed.small, fun i which => ?_⟩
  rw [rank_concat, if_neg (by omega), if_neg (by omega)]
  exact placed.placed i which

variable (page)

theorem reseqLoop_given {seen rest : List Anchor} (parts : page.buffer.href = seen ++ rest) {ml : HmarkerList}
    (placed : Placed page (page.placesOf seen) ml fun i =>
      page.buffer.nmark ≤ i ∧ i < page.buffer.nmark + (page.placesOf seen).length) :
    ∃ ml', reseqLoop page.buffer.formitem page.buffer.nmark (given page.buffer.nmark seen) rest
        ⟨entries page.total (rank page.buffer.nmark (page.placesOf seen)),
          page.buffer.nmark + (page.placesOf seen).length, ml⟩ =
      some (given page.buffer.nmark page.buffer.href,
        ⟨entries page.total (rank page.buffer.nmark (page.placesOf page.buffer.href)), page.total, ml'⟩) ∧
      Placed page (page.placesOf page.buffer.href) ml' fun i => page.buffer.nmark ≤ i ∧ i < page.total := by
  have total : page.buffer.nmark + (page.placesOf page.buffer.href).length = page.total := by
    rw [page.placesOf_length, NumberedBuffer.total]
  induction rest generalizing seen ml with
  | nil =>
      rw [List.append_nil] at parts
      rw [← parts, total] at placed
      rw [reseqLoop, ← parts, total]
      exact ⟨ml, rfl, placed⟩
  | cons a rest ih =>
      have parts' : page.buffer.href = (seen ++ [a]) ++ rest := by rw [parts, List.append_assoc, List.singleton_append]
      have sorted := page.sorted
      rw [reseqLoop]
      by_cases new : a.hseq = -2
      · have new' : isNew a = true := isNew_iff.mpr new
        have places : page.placesOf (seen ++ [a]) = page.placesOf seen ++ [page.placeOf a] := page.placesOf_new new'
        have front : SortedByStart (seen ++ [a]) := sorted.sublist (parts' ▸ List.sublist_append_left _ _)
        have sortedPlaces := page.placesOf_sorted front
        have inside := page.placesOf_le (seen ++ [a])
        have length : (page.placesOf (seen ++ [a])).length = (page.placesOf seen).length + 1 := by
          rw [places, List.length_append, List.length_singleton]
        have room : page.buffer.nmark + (page.placesOf (seen ++ [a])).length ≤ page.total := by
          have part : (seen ++ [a]).countP isNew ≤ page.buffer.href.countP isNew :=
            parts' ▸ (List.sublist_append_left _ _).countP_le
          rw [page.placesOf_length, NumberedBuffer.total]
          omega
        have countable : page.total ≤ 2 ^ 15 := page.countable
        have behind : ∀ p ∈ page.placesOf seen, p ≤ page.placeOf a := by
          intro p member
          rw [places] at sortedPlaces
          exact (List.pairwise_append.mp sortedPlaces).2.2 p member _ (.head _)
        have closest : closestNextAnchor page.buffer.formitem
            (closestNextAnchor (given page.buffer.nmark seen ++
              { a with hseq := (page.buffer.nmark + (page.placesOf seen).length : Nat) } :: rest) none a.start.pos
                a.start.line) a.start.pos a.start.line =
            closestNextAnchor page.buffer.known none a.start.pos a.start.line := by
          rw [closest_visited _ _ _ (parts ▸ sorted) new', ← parts, Buffer.known, closest_append]
        have mark : page.markOf (page.buffer.nmark + (page.placesOf seen).length) = some a.start := by
          rw [NumberedBuffer.markOf, if_neg (by omega), Nat.add_sub_cancel_left, parts', List.filter_append,
            List.filter_append, List.filter_cons_of_pos new', List.filter_nil, page.placesOf_length,
            List.countP_eq_length_filter, List.append_assoc, List.getElem?_append_right (Nat.le_refl _), Nat.sub_self]
          rfl
        have seq : rank page.buffer.nmark (page.placesOf (seen ++ [a]))
            (page.buffer.nmark + (page.placesOf seen).length) = page.placeOf a + (page.placesOf seen).length := by
          rw [places, rank_concat, if_neg (by omega), if_pos rfl]
        obtain ⟨ml', put, placed'⟩ := (@Placed.concat page _ ml (page.placeOf a) placed).put (places ▸ sortedPlaces)
          (places ▸ inside) (places ▸ room) (fun i which => by rw [← places]; omega)
          (by rw [← places]; omega : page.buffer.nmark + (page.placesOf seen).length < _)
        rw [← places, mark] at put
        rw [if_pos new]
        dsimp only
        rw [closest, makeRoom_entries behind (by omega) countable]
        · dsimp only [Option.bind_eq_bind, Option.bind_some]
          rw [← places, entries_getElem? _ (by omega)]
          dsimp only [Option.bind_some]
          rw [put]
          dsimp only [Option.bind_some]
          have visited : given page.buffer.nmark (seen ++ [a]) = given page.buffer.nmark seen ++
              [{ a with hseq := (page.buffer.nmark + (page.placesOf seen).length : Nat) }] := by
            rw [given_append, given, if_pos new, given, page.placesOf_length]
          rw [← visited, Nat.add_assoc, ← length]
          refine ih parts' ⟨placed'.small, fun i which => ?_⟩
          rw [places]
          refine placed'.placed i ?_
          omega
        · intro c found
          rcases page.placeOf_closest a with ⟨d, member, _, number, found', _⟩ | ⟨nothing, _, _⟩
          · obtain rfl : c = d := Option.some.inj (found.symm.trans found')
            have := page.numbered c member
            exact ⟨number, by omega⟩
          · exact absurd (nothing.symm.trans found) (by simp)
        · intro nothing
          rcases page.placeOf_closest a with ⟨d, _, _, _, found', _⟩ | ⟨_, place, _⟩
          · exact absurd (nothing.symm.trans found') (by simp)
          · exact place
      · have old : isNew a = false := decide_eq_false new
        have places : page.placesOf (seen ++ [a]) = page.placesOf seen := by
          rw [NumberedBuffer.placesOf, List.filter_append, List.filter_cons_of_neg (by simp [old]), List.filter_nil,
            List.append_nil]
          rfl
        have visited : given page.buffer.nmark (seen ++ [a]) = given page.buffer.nmark seen ++ [a] := by
          rw [given_append, given, if_neg new, given]
        rw [if_neg new, ← visited, ← places]
        exact ih parts' (places.symm ▸ placed)

theorem putMark_foldlM {ml : HmarkerList} {m : Nat} (old : m ≤ page.buffer.nmark)
    (placed : Placed page (page.placesOf page.buffer.href) ml fun i => page.buffer.nmark ≤ i ∧ i < page.total) :
    ∃ ml', (List.range m).foldlM (putMark page.buffer.marks
        (entries page.total (rank page.buffer.nmark (page.placesOf page.buffer.href)))) ml = some ml' ∧
      Placed page (page.placesOf page.buffer.href) ml' fun i =>
        (page.buffer.nmark ≤ i ∧ i < page.total) ∨ i < m := by
  have total : page.buffer.nmark + (page.placesOf page.buffer.href).length = page.total := by
    rw [page.placesOf_length, NumberedBuffer.total]
  induction m with
  | zero => exact ⟨ml, rfl, placed.small, fun i which => placed.placed i (which.resolve_right (Nat.not_lt_zero i))⟩
  | succ m ih =>
      obtain ⟨between, run, placed'⟩ := ih (Nat.le_of_lt old)
      obtain ⟨first, -, marked⟩ := page.marked m old
      have mark : page.buffer.marks[m]? = some (page.markOf m) := by
        rw [NumberedBuffer.markOf, if_pos (Nat.lt_of_succ_le old), marked]
        rfl
      obtain ⟨ml', put, placed''⟩ := @Placed.put page _ between _ m placed' (page.placesOf_sorted page.sorted)
        (page.placesOf_le _) (Nat.le_of_eq total) (fun i which => by omega) (by omega)
      refine ⟨ml', ?_, placed''.small, fun i which => placed''.placed i (by omega)⟩
      rw [List.range_succ, List.foldlM_append, run]
      dsimp only [Option.bind_eq_bind, Option.bind_some]
      rw [List.foldlM_cons, putMark, mark, entries_getElem? _ (by omega)]
      dsimp only [Option.bind_eq_bind, Option.bind_some]
      rw [put]
      rfl

/-! The anchors before the merge: the old ones have their numbers, and the new ones those behind. -/

def NumberedBuffer.slots : List Anchor := given page.buffer.nmark page.buffer.href ++ page.buffer.formitem

theorem NumberedBuffer.mem_slots {a : Anchor} :
    a ∈ page.slots ↔ a ∈ page.buffer.known ∨ ∃ (k : Nat) (b : Anchor), (page.buffer.href.filter isNew)[k]? = some b ∧
      a = { b with hseq := (page.buffer.nmark + k : Nat) } := by
  rw [NumberedBuffer.slots, List.mem_append, mem_given, Buffer.known, List.mem_append, List.mem_filter, Bool.not_eq_true',
    or_right_comm]

theorem NumberedBuffer.formitem_known : ∀ a ∈ page.buffer.formitem, a.hseq ≠ -2 := by
  intro a member
  have := (page.numbered a (List.mem_append.mpr (.inr member))).1
  omega

theorem NumberedBuffer.slots_given : page.slots = given page.buffer.nmark page.buffer.all := by
  rw [NumberedBuffer.slots, Buffer.all, given_append, given_known page.formitem_known]

theorem NumberedBuffer.new_length {k : Nat} {b : Anchor} (here : (page.buffer.href.filter isNew)[k]? = some b) :
    page.buffer.nmark + k < page.total := by
  have := (List.getElem?_eq_some_iff.mp here).1
  rw [NumberedBuffer.total, List.countP_eq_length_filter]
  omega

theorem NumberedBuffer.slots_inside {a : Anchor} (member : a ∈ page.slots) : 0 ≤ a.hseq ∧ a.hseq.toNat < page.total := by
  rcases page.mem_slots.mp member with known | ⟨k, b, here, rfl⟩
  · have := page.numbered a known
    rw [NumberedBuffer.total]
    omega
  · have := page.new_length here
    dsimp only
    omega

theorem NumberedBuffer.slots_first {j : Nat} (inside : j < page.total) :
    ∃ first, FirstOf page.slots j first ∧ page.markOf j = some first.start := by
  by_cases old : j < page.buffer.nmark
  · obtain ⟨first, ⟨member, number, before⟩, marked⟩ := page.marked j old
    refine ⟨first, ⟨page.mem_slots.mpr (.inl member), number, fun a there same => ?_⟩, ?_⟩
    · rcases page.mem_slots.mp there with known | ⟨k, b, here, rfl⟩
      · exact before a known same
      · dsimp only at same
        omega
    · rw [NumberedBuffer.markOf, if_pos old, marked]
      rfl
  · obtain ⟨k, rfl⟩ := Nat.exists_eq_add_of_le (Nat.le_of_not_lt old)
    rw [NumberedBuffer.total, List.countP_eq_length_filter] at inside
    have here := List.getElem?_eq_getElem (by omega : k < (page.buffer.href.filter isNew).length)
    refine ⟨_, ⟨page.mem_slots.mpr (.inr ⟨k, _, here, rfl⟩), rfl, fun a there same => ?_⟩, ?_⟩
    · rcases page.mem_slots.mp there with known | ⟨n, b, here', rfl⟩
      · have := (page.numbered a known).2
        omega
      · obtain rfl : n = k := by
          dsimp only at same
          omega
        rw [here, Option.some.injEq] at here'
        rw [← here']
        exact (bpcmp_nonpos _ _).mpr (.inr ⟨rfl, Int.le_refl _⟩)
    · rw [NumberedBuffer.markOf, if_neg old, Nat.add_sub_cancel_left, here]
      rfl

/-! The buffer after the merge. -/

def NumberedBuffer.rankOf (j : Nat) : Nat := rank page.buffer.nmark (page.placesOf page.buffer.href) j

def NumberedBuffer.ranked (a : Anchor) : Anchor := { a with hseq := page.rankOf a.hseq.toNat }

theorem NumberedBuffer.total_eq : page.buffer.nmark + (page.placesOf page.buffer.href).length = page.total := by
  rw [page.placesOf_length, NumberedBuffer.total]

theorem NumberedBuffer.rankOf_lt {j : Nat} (inside : j < page.total) : page.rankOf j < page.total := by
  have below := @rank_lt page.buffer.nmark _ (page.placesOf_le page.buffer.href) j
  rw [page.total_eq] at below
  exact below inside

theorem NumberedBuffer.rankOf_injective {i j : Nat} (iInside : i < page.total) (jInside : j < page.total)
    (same : page.rankOf i = page.rankOf j) : i = j := by
  rw [← page.total_eq] at iInside jInside
  exact rank_injective (page.placesOf_sorted page.sorted) iInside jInside same

theorem NumberedBuffer.rankOf_surjective {r : Nat} (small : r < page.total) :
    ∃ j, j < page.total ∧ page.rankOf j = r := by
  have onto := @rank_surjective page.buffer.nmark _ (page.placesOf_sorted page.sorted)
    (page.placesOf_le page.buffer.href) r
  rw [page.total_eq] at onto
  exact onto small

theorem NumberedBuffer.placesOf_getElem? {k : Nat} {b : Anchor} (here : (page.buffer.href.filter isNew)[k]? = some b) :
    (page.placesOf page.buffer.href)[k]? = some (page.placeOf b) := by
  rw [NumberedBuffer.placesOf, List.getElem?_map, here]
  rfl

/-- The order of the anchors is that of the ranks, where nothing stands in between. -/
theorem NumberedBuffer.ranked_increasing {a b : Anchor} (first : a ∈ page.slots) (second : b ∈ page.slots)
    (order : bpcmp a.start b.start ≤ 0) :
    page.rankOf a.hseq.toNat ≤ page.rankOf b.hseq.toNat ∨
      ∃ c ∈ page.slots, c.hseq = a.hseq ∧ bpcmp b.start c.start < 0 := by
  have sorted := page.placesOf_sorted page.sorted
  rcases page.mem_slots.mp first with aKnown | ⟨i, a, aHere, rfl⟩
  · have aNumber := page.numbered a aKnown
    rcases page.mem_slots.mp second with bKnown | ⟨j, b, bHere, rfl⟩
    · have bNumber := page.numbered b bKnown
      have le := page.increasing a aKnown b bKnown order
      rcases Int.lt_or_eq_of_le le with less | equal
      · exact .inl (Nat.le_of_lt (rank_old_lt (by omega) (by omega)))
      · exact .inl (by rw [equal])
    · have order' := @rank_new_old page.buffer.nmark _ sorted j _ a.hseq.toNat (page.placesOf_getElem? bHere) (by omega)
      rcases Nat.lt_or_ge a.hseq.toNat (page.placeOf b) with less | le
      · exact .inl (Nat.le_of_lt (order'.2 less))
      · obtain ⟨c, member, number, behind⟩ := (page.placeOf_le_iff b (by omega)).mp le
        exact .inr ⟨c, page.mem_slots.mpr (.inl member), by omega, behind⟩
  · rcases page.mem_slots.mp second with bKnown | ⟨j, b, bHere, rfl⟩
    · have bNumber := page.numbered b bKnown
      have inside := List.mem_filter.mp (List.mem_of_getElem? aHere)
      have apart := page.apart a inside.1 inside.2 b bKnown
      have behind := bpcmp_neg_of_ne order apart
      have le := (page.placeOf_le_iff a (by omega)).mpr ⟨b, bKnown, (Int.toNat_of_nonneg bNumber.1).symm, behind⟩
      exact .inl (Nat.le_of_lt ((rank_new_old sorted (page.placesOf_getElem? aHere) (by omega)).1 le))
    · rcases Nat.lt_trichotomy i j with less | rfl | more
      · refine .inl (Nat.le_of_lt (rank_new_lt sorted less ?_))
        exact (List.getElem?_eq_some_iff.mp (page.placesOf_getElem? bHere)).1
      · exact .inl (Nat.le_refl _)
      · obtain ⟨iInside, rfl⟩ := List.getElem?_eq_some_iff.mp aHere
        obtain ⟨jInside, rfl⟩ := List.getElem?_eq_some_iff.mp bHere
        have before := List.pairwise_iff_getElem.mp (page.sorted.sublist List.filter_sublist) j i jInside iInside more
        have distinct := List.pairwise_iff_getElem.mp page.distinct j i jInside iInside more
        exact absurd (bpcmp_antisymm before order) distinct

theorem given_unnumbered (n : Nat) (anchors : List Anchor) : (given n anchors).map unnumbered = anchors.map unnumbered := by
  induction anchors generalizing n with
  | nil => rfl
  | cons a anchors ih =>
      rw [given]
      split
      · rw [List.map_cons, List.map_cons, ih]
        rfl
      · rw [List.map_cons, List.map_cons, ih]

theorem NumberedBuffer.ranked_eq_iff {a b : Anchor} (first : a ∈ page.slots) (second : b ∈ page.slots) :
    (page.ranked a).hseq = (page.ranked b).hseq ↔ a.hseq = b.hseq := by
  obtain ⟨aNumber, aInside⟩ := page.slots_inside first
  obtain ⟨bNumber, bInside⟩ := page.slots_inside second
  constructor
  · intro same
    have equal := page.rankOf_injective aInside bInside (Int.ofNat.inj same)
    omega
  · intro same
    rw [NumberedBuffer.ranked, NumberedBuffer.ranked, same]

theorem countP_take_lt {anchors : List Anchor} {i j : Nat} {a : Anchor} (less : i < j) (here : anchors[i]? = some a)
    (new : isNew a = true) : (anchors.take i).countP isNew < (anchors.take j).countP isNew := by
  have parts : anchors.take (i + 1) = anchors.take i ++ [a] := by rw [List.take_add_one, here, Option.toList_some]
  have longer : (anchors.take (i + 1)).countP isNew ≤ (anchors.take j).countP isNew :=
    (List.take_sublist_take_left less).countP_le
  rw [parts, List.countP_append, List.countP_singleton, if_pos new] at longer
  omega

theorem NumberedBuffer.slots_shared {i j : Nat} {a b a' b' : Anchor} (aHere : page.buffer.all[i]? = some a)
    (bHere : page.buffer.all[j]? = some b) (aSlot : page.slots[i]? = some a') (bSlot : page.slots[j]? = some b') :
    a'.hseq = b'.hseq ↔ i = j ∨ a.hseq = b.hseq ∧ isNew a = false := by
  have bound : ∀ {k : Nat} {c : Anchor}, page.buffer.all[k]? = some c → isNew c = false → c.hseq < page.buffer.nmark := by
    intro k c here old
    refine (page.numbered c ?_).2
    rw [Buffer.known, List.mem_append, List.mem_filter]
    rcases List.mem_append.mp (List.mem_of_getElem? here) with link | form
    · exact .inl ⟨link, by rw [old]; rfl⟩
    · exact .inr form
  rw [page.slots_given, given_getElem?] at aSlot bSlot
  rw [aHere, Option.map_some, Option.some.injEq] at aSlot
  rw [bHere, Option.map_some, Option.some.injEq] at bSlot
  cases aNew : isNew a with
  | true =>
      have a2 := isNew_iff.mp aNew
      rw [if_pos a2] at aSlot
      cases bNew : isNew b with
      | true =>
          rw [if_pos (isNew_iff.mp bNew)] at bSlot
          rw [← aSlot, ← bSlot]
          dsimp only
          rcases Nat.lt_trichotomy i j with less | rfl | more
          · have := countP_take_lt less aHere aNew
            simp only [reduceCtorEq, and_false, or_false]
            omega
          · simp
          · have := countP_take_lt more bHere bNew
            simp only [reduceCtorEq, and_false, or_false]
            omega
      | false =>
          have b2 : b.hseq ≠ -2 := of_decide_eq_false bNew
          have := bound bHere bNew
          rw [if_neg b2] at bSlot
          rw [← aSlot, ← bSlot]
          have apart : i ≠ j := by
            rintro rfl
            rw [aHere, Option.some.injEq] at bHere
            exact b2 (bHere ▸ a2)
          simp only [apart, reduceCtorEq, and_false, or_self, iff_false]
          omega
  | false =>
      have a2 : a.hseq ≠ -2 := of_decide_eq_false aNew
      have := bound aHere aNew
      rw [if_neg a2] at aSlot
      cases bNew : isNew b with
      | true =>
          have b2 := isNew_iff.mp bNew
          rw [if_pos b2] at bSlot
          rw [← aSlot, ← bSlot]
          have apart : i ≠ j := by
            rintro rfl
            rw [aHere, Option.some.injEq] at bHere
            exact a2 (bHere ▸ b2)
          simp only [apart, false_or, and_true]
          omega
      | false =>
          rw [if_neg (of_decide_eq_false bNew)] at bSlot
          rw [← aSlot, ← bSlot]
          simp only [and_true]
          refine ⟨.inr, fun either => either.elim (fun same => ?_) id⟩
          rw [same, bHere, Option.some.injEq] at aHere
          rw [aHere]

theorem NumberedBuffer.renumbered {result : Buffer}
    (href : result.href = (given page.buffer.nmark page.buffer.href).map page.ranked)
    (formitem : result.formitem = page.buffer.formitem.map page.ranked) (small : result.nmark ≤ page.total)
    (marked : ∀ j, j < page.total → result.marks[page.rankOf j]? = some (page.markOf j)) :
    Renumbered page.buffer result := by
  have all : result.all = page.slots.map page.ranked := by
    rw [Buffer.all, href, formitem, NumberedBuffer.slots, List.map_append]
  have nmark : result.nmark = page.total := by
    rcases Nat.eq_zero_or_pos page.total with zero | positive
    · omega
    · obtain ⟨j, inside, last⟩ := page.rankOf_surjective (Nat.sub_lt positive Nat.one_pos)
      have := (List.getElem?_eq_some_iff.mp (marked j inside)).1
      rw [last] at this
      rw [Buffer.nmark] at small ⊢
      omega
  have firsts : ∀ j, j < page.total → ∃ first, FirstOf result.all (page.rankOf j) first ∧
      page.markOf j = some first.start := by
    intro j inside
    obtain ⟨first, ⟨member, number, before⟩, mark⟩ := page.slots_first inside
    have index : first.hseq.toNat = j := by omega
    have rank' : (page.ranked first).hseq = page.rankOf j := by rw [NumberedBuffer.ranked, index]
    refine ⟨page.ranked first, ⟨?_, rank', fun a there same => ?_⟩, mark⟩
    · rw [all]
      exact List.mem_map_of_mem member
    · rw [all] at there
      obtain ⟨b, slot, rfl⟩ := List.mem_map.mp there
      refine before b slot ?_
      rw [← number]
      exact (page.ranked_eq_iff slot member).mp (same.trans rank'.symm)
  refine ⟨?_, ?_, ?_, ?_, ?_, ?_, ?_⟩
  · rw [href, List.map_map]
    exact given_unnumbered _ _
  · rw [formitem, List.map_map]
    rfl
  · intro a member
    rw [all] at member
    obtain ⟨b, _, rfl⟩ := List.mem_map.mp member
    refine decide_eq_false fun new => ?_
    rw [NumberedBuffer.ranked] at new
    dsimp only at new
    omega
  · intro hseq
    constructor
    · rintro ⟨a, member, rfl⟩
      rw [all] at member
      obtain ⟨b, there, rfl⟩ := List.mem_map.mp member
      have := page.rankOf_lt (page.slots_inside there).2
      rw [NumberedBuffer.ranked, nmark]
      dsimp only
      omega
    · rintro ⟨positive, less⟩
      obtain ⟨j, inside, equal⟩ := page.rankOf_surjective (by omega : hseq.toNat < page.total)
      obtain ⟨first, ⟨member, number, _⟩, _⟩ := firsts j inside
      exact ⟨first, member, by omega⟩
  · intro i j a b a' b' aHere bHere aRanked bRanked
    rw [all, List.getElem?_map, Option.map_eq_some_iff] at aRanked bRanked
    obtain ⟨aSlot, aThere, rfl⟩ := aRanked
    obtain ⟨bSlot, bThere, rfl⟩ := bRanked
    rw [page.ranked_eq_iff (List.mem_of_getElem? aThere) (List.mem_of_getElem? bThere)]
    exact page.slots_shared aHere bHere aThere bThere
  · intro a first b second order
    rw [all] at first second ⊢
    obtain ⟨a, aThere, rfl⟩ := List.mem_map.mp first
    obtain ⟨b, bThere, rfl⟩ := List.mem_map.mp second
    rcases page.ranked_increasing aThere bThere order with le | ⟨c, member, same, behind⟩
    · exact .inl (Int.ofNat_le.mpr le)
    · refine .inr ⟨page.ranked c, List.mem_map_of_mem member, ?_, behind⟩
      exact (page.ranked_eq_iff member aThere).mpr same
  · intro hseq less
    obtain ⟨j, inside, rfl⟩ := page.rankOf_surjective (by omega : hseq < page.total)
    obtain ⟨first, isFirst, mark⟩ := firsts j inside
    exact ⟨first, isFirst, by rw [marked j inside, mark]⟩

theorem reseqAnchor0_entries {total : Nat} {f : Nat → Nat} {anchors : List Anchor}
    (inside : ∀ a ∈ anchors, 0 ≤ a.hseq ∧ a.hseq.toNat < total) :
    reseqAnchor0 anchors (entries total f) = some (anchors.map fun a => { a with hseq := f a.hseq.toNat }) := by
  induction anchors with
  | nil => rfl
  | cons a anchors ih =>
      have here := inside a (.head _)
      have rest := ih fun b member => inside b (.tail _ member)
      rw [reseqAnchor0] at rest ⊢
      rw [List.mapM_cons, renumber, if_pos here.1, entries_getElem? f here.2, rest]
      rfl

theorem NumberedBuffer.renumbered_none (none : page.buffer.href.countP isNew = 0) : Renumbered page.buffer page.buffer := by
  have places : page.placesOf page.buffer.href = [] := by
    rw [← List.length_eq_zero_iff, page.placesOf_length, none]
  have total : page.total = page.buffer.nmark := by rw [NumberedBuffer.total, none, Nat.add_zero]
  have same : ∀ j, page.rankOf j = j := fun j => by rw [NumberedBuffer.rankOf, places, rank_nil]
  have old : ∀ a ∈ page.buffer.href, isNew a = false := fun a member =>
    Bool.eq_false_iff.mpr (List.countP_eq_zero.mp none a member)
  have numbers : ∀ a ∈ page.buffer.known, page.ranked a = a := by
    intro a member
    rw [NumberedBuffer.ranked, same, Int.toNat_of_nonneg (page.numbered a member).1]
  have known : page.buffer.known = page.buffer.all := by
    rw [Buffer.known, Buffer.all, List.filter_eq_self.mpr fun a member => by rw [old a member]; rfl]
  rw [known, Buffer.all] at numbers
  refine page.renumbered ?_ ?_ (Nat.le_of_eq total.symm) fun j inside => ?_
  · rw [given_known fun a member => of_decide_eq_false (old a member)]
    exact ((List.map_congr_left fun a member => numbers a (List.mem_append_left _ member)).trans (List.map_id' _)).symm
  · exact ((List.map_congr_left fun a member => numbers a (List.mem_append_right _ member)).trans (List.map_id' _)).symm
  · rw [total] at inside
    obtain ⟨first, _, marked⟩ := page.marked j inside
    rw [same, NumberedBuffer.markOf, if_pos inside, marked]
    rfl

/-- The numbers of the links and form fields are consistent after the renumbering. -/
theorem reseqAnchor_renumbered : ∃ result, reseqAnchor page.buffer = some result ∧ Renumbered page.buffer result := by
  by_cases none : page.buffer.href.countP isNew = 0
  · exact ⟨page.buffer, by rw [reseqAnchor, if_pos (by rw [none, Nat.add_zero])], page.renumbered_none none⟩
  · have start : Placed page (page.placesOf []) newHmarkerList fun i =>
        page.buffer.nmark ≤ i ∧ i < page.buffer.nmark + (page.placesOf []).length :=
      ⟨Nat.zero_le _, fun i which => absurd which.2 (Nat.not_lt.mpr which.1)⟩
    have identity : ((List.range (page.buffer.nmark + page.buffer.href.countP isNew)).map fun i : Nat => wrapShort i) =
        entries page.total (rank page.buffer.nmark (page.placesOf [])) := by
      refine List.map_congr_left fun i member => ?_
      have countable := page.countable
      have inside := List.mem_range.mp member
      rw [wrapShort_nat (by omega)]
      exact congrArg Int.ofNat (rank_nil i).symm
    obtain ⟨ml, loop, placed⟩ := reseqLoop_given page (List.nil_append _).symm start
    obtain ⟨ml', marks, placed'⟩ := putMark_foldlM page (Nat.le_refl _) placed
    have slots := fun a => page.slots_inside (a := a)
    rw [reseqAnchor, if_neg (by omega), identity]
    have loop' : reseqLoop page.buffer.formitem page.buffer.nmark [] page.buffer.href
        ⟨entries page.total (rank page.buffer.nmark (page.placesOf [])), page.buffer.nmark, newHmarkerList⟩ = _ := loop
    dsimp only
    rw [loop']
    dsimp only [Option.bind_eq_bind, Option.bind_some]
    rw [marks]
    dsimp only [Option.bind_some]
    rw [reseqAnchor0_entries fun a member => slots a (List.mem_append_left _ member),
      reseqAnchor0_entries fun a member => slots a (List.mem_append_right _ member)]
    refine ⟨_, rfl, page.renumbered rfl rfl placed'.small fun j inside => placed'.placed j ?_⟩
    omega

end Run

def plainAnchor (line hseq : Int) : Anchor := ⟨⟨none, none, none, none, 0⟩, false, ⟨line, 0⟩, ⟨line, 1⟩, hseq⟩

def brokenLink : NumberedBuffer where
  buffer := ⟨[plainAnchor 0 0, plainAnchor 1 (-2), plainAnchor 2 0], [], some ⟨[some ⟨0, 0⟩], 30⟩⟩
  sorted := by unfold SortedByStart; decide
  numbered := by decide
  increasing := by decide
  marked := fun hseq small => by
    obtain rfl : hseq = 0 := Nat.lt_one_iff.mp small
    exact ⟨plainAnchor 0 0, ⟨.head _, rfl, by decide⟩, rfl⟩
  apart := by decide
  distinct := List.pairwise_singleton _ _
  countable := by decide

/-- The new link comes first, though a part of the other one is in front of it. -/
theorem reseqAnchor_brokenLink :
    ¬ ∀ (page : NumberedBuffer) (result : Buffer), reseqAnchor page.buffer = some result →
      ∀ a ∈ result.all, ∀ b ∈ result.all, bpcmp a.start b.start ≤ 0 → a.hseq ≤ b.hseq := by
  intro all
  have order := all brokenLink _ rfl (plainAnchor 0 1) (.head _) (plainAnchor 1 0) (.tail _ (.head _)) (by decide)
  exact absurd order (by decide)

end KcnTools.Anchors
