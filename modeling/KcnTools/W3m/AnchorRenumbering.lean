import KcnTools.Lib.MergeRanks
import KcnTools.W3m.AnchorLookup
import KcnTools.W3m.Anchor
import Mathlib

/-!
The numbers of the links and form fields of a buffer: the markers, and the renumbering after links
have been put in. An anchor that has no number yet has `hseq` -2. An index outside is `none`.
-/

namespace KcnTools.Anchors

/-- `marks` has `nmark` entries, of which `none` has not been set. -/
structure HmarkerList where
  marks : List (Option BufferPoint)
  markmax : Nat
  deriving DecidableEq

def FIRST_MARKER_SIZE : Nat := 30

def newHmarkerList : HmarkerList := ⟨[], 0⟩

def markRoom (nmark markmax : Nat) : Nat :=
  let markmax := if markmax = 0 then FIRST_MARKER_SIZE else markmax
  if markmax ≤ nmark then nmark * 2 else markmax

def putHmarker (ml : HmarkerList) (mark : Option BufferPoint) (seq : Int) : Option HmarkerList :=
  let nmark := if ml.marks.length < seq + 1 then (seq + 1).toNat else ml.marks.length
  let markmax := markRoom nmark ml.markmax
  if 0 ≤ seq ∧ seq < markmax then
    some ⟨(ml.marks ++ List.replicate (nmark - ml.marks.length) none).set seq.toNat mark, markmax⟩
  else none

def closerNext (x y : Int) (an : Option Anchor) (a : Anchor) : Option Anchor :=
  if a.hseq < 0 then an
  else if y < a.start.line ∨ a.start.line = y ∧ x < a.start.pos then
    match an with
    | none => some a
    | some b =>
        if a.start.line < b.start.line ∨ b.start.line = a.start.line ∧ a.start.pos < b.start.pos then some a else an
  else an

def closestNextAnchor (anchors : List Anchor) (an : Option Anchor) (x y : Int) : Option Anchor :=
  anchors.foldl (closerNext x y) an

def wrapShort (n : Int) : Int := (n + 2 ^ 15) % 2 ^ 16 - 2 ^ 15

def raise : Nat → Nat → List Int → Option (List Int)
  | 0, _, seqmap => some seqmap
  | rounds + 1, j, seqmap => do
      let seq ← seqmap[j]?
      raise rounds (j + 1) (seqmap.set j (wrapShort (seq + 1)))

def makeRoom (seqmap : List Int) (a1 : Option Anchor) (nmark n : Nat) : Option (List Int) :=
  match a1 with
  | none => some seqmap
  | some a1 =>
      if 0 ≤ a1.hseq then do
        let seq ← seqmap[a1.hseq.toNat]?
        if n < seqmap.length then raise (nmark - a1.hseq.toNat) a1.hseq.toNat (seqmap.set n seq) else none
      else some seqmap

structure Renumbering where
  seqmap : List Int
  n : Nat
  ml : HmarkerList

def reseqLoop (formitem : List Anchor) (nmark : Nat) :
    List Anchor → List Anchor → Renumbering → Option (List Anchor × Renumbering)
  | visited, [], state => some (visited, state)
  | visited, a :: rest, state =>
      if a.hseq = -2 then do
        let a := { a with hseq := state.n }
        let a1 := closestNextAnchor (visited ++ a :: rest) none a.start.pos a.start.line
        let a1 := closestNextAnchor formitem a1 a.start.pos a.start.line
        let seqmap ← makeRoom state.seqmap a1 nmark state.n
        let seq ← seqmap[state.n]?
        let ml ← putHmarker state.ml (some a.start) seq
        reseqLoop formitem nmark (visited ++ [a]) rest ⟨seqmap, state.n + 1, ml⟩
      else reseqLoop formitem nmark (visited ++ [a]) rest state

def putMark (marks : List (Option BufferPoint)) (seqmap : List Int) (ml : HmarkerList) (i : Nat) :
    Option HmarkerList := do
  let mark ← marks[i]?
  let seq ← seqmap[i]?
  putHmarker ml mark seq

def renumber (seqmap : List Int) (a : Anchor) : Option Anchor :=
  if 0 ≤ a.hseq then seqmap[a.hseq.toNat]?.map fun seq => { a with hseq := seq } else some a

def reseqAnchor0 (anchors : List Anchor) (seqmap : List Int) : Option (List Anchor) := anchors.mapM (renumber seqmap)

structure Buffer where
  href : List Anchor
  formitem : List Anchor
  hmarklist : Option HmarkerList

def Buffer.marks (buf : Buffer) : List (Option BufferPoint) :=
  match buf.hmarklist with
  | some ml => ml.marks
  | none => []

def Buffer.nmark (buf : Buffer) : Nat := buf.marks.length

def isNew (a : Anchor) : Bool := decide (a.hseq = -2)

def reseqAnchor (buf : Buffer) : Option Buffer :=
  let nmark := buf.nmark
  let n := nmark + buf.href.countP isNew
  if n = nmark then some buf
  else do
    let seqmap := (List.range n).map fun i : Nat => wrapShort i
    let (href, state) ← reseqLoop buf.formitem nmark [] buf.href ⟨seqmap, nmark, newHmarkerList⟩
    let ml ← (List.range nmark).foldlM (putMark buf.marks state.seqmap) state.ml
    let href ← reseqAnchor0 href state.seqmap
    let formitem ← reseqAnchor0 buf.formitem state.seqmap
    some ⟨href, formitem, some ml⟩

end KcnTools.Anchors

/-!
Renumbering the links and form fields. A new link goes in front of the number of the next anchor, so
the numbers are those of merging the new links into the old numbers.
-/

namespace KcnTools.Anchors

open MergeRanks

def Buffer.known (buf : Buffer) : List Anchor := buf.href.filter (fun a => !isNew a) ++ buf.formitem

def Buffer.all (buf : Buffer) : List Anchor := buf.href ++ buf.formitem

def FirstOf (anchors : List Anchor) (hseq : Int) (first : Anchor) : Prop :=
  first ∈ anchors ∧ first.hseq = hseq ∧ ∀ a ∈ anchors, a.hseq = hseq → bpcmp first.start a.start ≤ 0

/-- A buffer with numbers that increase with the position, and new links elsewhere -/
structure NumberedBuffer where
  buffer : Buffer
  /-- `putAnchor` keeps the order. -/
  sorted : SortedByStart buffer.href
  numbered : ∀ a ∈ buffer.known, 0 ≤ a.hseq ∧ a.hseq < buffer.nmark
  increasing : ∀ a ∈ buffer.known, ∀ b ∈ buffer.known, bpcmp a.start b.start ≤ 0 → a.hseq ≤ b.hseq
  marked : ∀ hseq, hseq < buffer.nmark → ∃ first, FirstOf buffer.known hseq first ∧
    buffer.marks[hseq]? = some (some first.start)
  apart : ∀ a ∈ buffer.href, isNew a = true → ∀ b ∈ buffer.known, a.start ≠ b.start
  distinct : (buffer.href.filter isNew).Pairwise fun a b => a.start ≠ b.start
  /-- `seqmap` has entries of type `short`. -/
  countable : buffer.nmark + buffer.href.countP isNew ≤ 2 ^ 15

def unnumbered (a : Anchor) : Anchor := { a with hseq := 0 }

structure Renumbered (buf result : Buffer) : Prop where
  href : result.href.map unnumbered = buf.href.map unnumbered
  formitem : result.formitem.map unnumbered = buf.formitem.map unnumbered
  noNew : ∀ a ∈ result.all, isNew a = false
  used : ∀ hseq : Int, (∃ a ∈ result.all, a.hseq = hseq) ↔ 0 ≤ hseq ∧ hseq < result.nmark
  shared : ∀ (i j : Nat) a b a' b', buf.all[i]? = some a → buf.all[j]? = some b → result.all[i]? = some a' →
    result.all[j]? = some b' → (a'.hseq = b'.hseq ↔ i = j ∨ a.hseq = b.hseq ∧ isNew a = false)
  /-- An anchor may stand between two that share a number. -/
  increasing : ∀ a ∈ result.all, ∀ b ∈ result.all, bpcmp a.start b.start ≤ 0 →
    a.hseq ≤ b.hseq ∨ ∃ c ∈ result.all, c.hseq = a.hseq ∧ bpcmp b.start c.start < 0
  marked : ∀ hseq : Nat, hseq < result.nmark → ∃ first, FirstOf result.all hseq first ∧
    result.marks[hseq]? = some (some first.start)

/-! The closest anchor behind a position. -/

section Closest

variable {x y : Int}

def Behind (x y : Int) (a : Anchor) : Prop := 0 ≤ a.hseq ∧ bpcmp ⟨y, x⟩ a.start < 0

theorem closerNext_skip {an : Option Anchor} {a : Anchor} (other : ¬ Behind x y a) : closerNext x y an a = an := by
  rw [Behind, bpcmp_neg] at other
  dsimp only at other
  unfold closerNext
  split
  · rfl
  · rw [if_neg (by omega)]

theorem closerNext_behind {an : Option Anchor} {a : Anchor} (behind : Behind x y a) :
    ∃ c, closerNext x y an a = some c ∧ (c = a ∨ an = some c) ∧ bpcmp c.start a.start ≤ 0 ∧
      ∀ b, an = some b → bpcmp c.start b.start ≤ 0 := by
  obtain ⟨numbered, place⟩ := behind
  rw [bpcmp_neg] at place
  dsimp only at place
  have itself : ∀ b : Anchor, bpcmp b.start b.start ≤ 0 := fun b => (bpcmp_nonpos _ _).mpr (.inr ⟨rfl, Int.le_refl _⟩)
  unfold closerNext
  rw [if_neg (by omega), if_pos (by omega)]
  cases an with
  | none => exact ⟨a, rfl, .inl rfl, itself a, fun b found => absurd found (by simp)⟩
  | some b =>
      dsimp only
      split
      next closer =>
        refine ⟨a, rfl, .inl rfl, itself a, fun other found => ?_⟩
        obtain rfl := Option.some.inj found
        rw [bpcmp_nonpos]
        omega
      next further =>
        refine ⟨b, rfl, .inr rfl, (bpcmp_nonpos _ _).mpr (by omega), fun other found => ?_⟩
        obtain rfl := Option.some.inj found
        exact itself _

/-- What the search returns: an anchor behind the position with no other in between -/
structure Closest (x y : Int) (anchors : List Anchor) (an found : Option Anchor) : Prop where
  none : found = none → an = none ∧ ∀ a ∈ anchors, ¬ Behind x y a
  some : ∀ c, found = some c → (c ∈ anchors ∧ Behind x y c ∨ an = some c) ∧
    (∀ a ∈ anchors, Behind x y a → bpcmp c.start a.start ≤ 0) ∧ ∀ b, an = some b → bpcmp c.start b.start ≤ 0

theorem closestNextAnchor_closest (anchors : List Anchor) (an : Option Anchor) :
    Closest x y anchors an (closestNextAnchor anchors an x y) := by
  induction anchors generalizing an with
  | nil =>
      refine ⟨fun empty => ⟨empty, fun a member => absurd member List.not_mem_nil⟩, fun c found => ?_⟩
      refine ⟨.inr found, fun a member => absurd member List.not_mem_nil, fun b other => ?_⟩
      obtain rfl : b = c := Option.some.inj (other.symm.trans found)
      exact (bpcmp_nonpos _ _).mpr (.inr ⟨rfl, Int.le_refl _⟩)
  | cons a anchors ih =>
      rw [closestNextAnchor, List.foldl_cons]
      by_cases behind : Behind x y a
      · obtain ⟨c, closer, origin, toA, toOthers⟩ := @closerNext_behind x y an a behind
        have rest := ih (some c)
        rw [closer]
        refine ⟨fun empty => absurd (rest.none empty).1 (by simp), fun d found => ?_⟩
        obtain ⟨from', before, beforeC⟩ := rest.some d found
        have toC := beforeC c rfl
        refine ⟨?_, ?_, fun b other => bpcmp_trans toC (toOthers b other)⟩
        · rcases from' with ⟨member, place⟩ | same
          · exact .inl ⟨.tail _ member, place⟩
          · obtain rfl := Option.some.inj same
            rcases origin with rfl | earlier
            · exact .inl ⟨.head _, behind⟩
            · exact .inr earlier
        · intro e member place
          rcases List.mem_cons.mp member with rfl | later
          · exact bpcmp_trans toC toA
          · exact before e later place
      · rw [closerNext_skip behind]
        have rest := ih an
        refine ⟨fun empty => ⟨(rest.none empty).1, fun e member => ?_⟩, fun d found => ?_⟩
        · rcases List.mem_cons.mp member with rfl | later
          · exact behind
          · exact (rest.none empty).2 e later
        · obtain ⟨from', before, others⟩ := rest.some d found
          refine ⟨from'.imp_left fun both => ⟨.tail _ both.1, both.2⟩, fun e member place => ?_, others⟩
          rcases List.mem_cons.mp member with rfl | later
          · exact absurd place behind
          · exact before e later place

end Closest

/-! The new links have numbers behind those of the others at first. -/

def given : Nat → List Anchor → List Anchor
  | _, [] => []
  | n, a :: rest => if a.hseq = -2 then { a with hseq := n } :: given (n + 1) rest else a :: given n rest

theorem isNew_iff {a : Anchor} : isNew a = true ↔ a.hseq = -2 := decide_eq_true_iff

theorem given_append (n : Nat) (anchors others : List Anchor) :
    given n (anchors ++ others) = given n anchors ++ given (n + anchors.countP isNew) others := by
  induction anchors generalizing n with
  | nil => rfl
  | cons a anchors ih =>
      rw [List.cons_append, given, given, List.countP_cons]
      by_cases new : a.hseq = -2
      · rw [if_pos new, if_pos new, ih, if_pos (isNew_iff.mpr new), List.cons_append]
        congr 3
        omega
      · rw [if_neg new, if_neg new, ih, if_neg fun other => new (isNew_iff.mp other), List.cons_append, Nat.add_zero]

theorem given_known {n : Nat} {anchors : List Anchor} (known : ∀ a ∈ anchors, a.hseq ≠ -2) : given n anchors = anchors := by
  induction anchors with
  | nil => rfl
  | cons a anchors ih => rw [given, if_neg (known a (.head _)), ih fun b member => known b (.tail _ member)]

theorem given_getElem? (n : Nat) (anchors : List Anchor) (i : Nat) :
    (given n anchors)[i]? = anchors[i]?.map fun a =>
      if a.hseq = -2 then { a with hseq := (n + (anchors.take i).countP isNew : Nat) } else a := by
  induction anchors generalizing n i with
  | nil => rfl
  | cons a anchors ih =>
      rw [given]
      cases i with
      | zero =>
          rw [List.getElem?_cons_zero, List.take_zero, List.countP_nil, Option.map_some]
          split
          · rfl
          · rfl
      | succ i =>
          rw [List.getElem?_cons_succ, List.take_succ_cons, List.countP_cons]
          by_cases new : a.hseq = -2
          · rw [if_pos new, List.getElem?_cons_succ, ih, if_pos (isNew_iff.mpr new), Nat.add_right_comm, Nat.add_assoc]
          · rw [if_neg new, List.getElem?_cons_succ, ih, if_neg fun other => new (isNew_iff.mp other), Nat.add_zero]

theorem mem_given {n : Nat} {anchors : List Anchor} {a : Anchor} :
    a ∈ given n anchors ↔ a ∈ anchors ∧ isNew a = false ∨
      ∃ (k : Nat) (b : Anchor), (anchors.filter isNew)[k]? = some b ∧ a = { b with hseq := (n + k : Nat) } := by
  induction anchors generalizing n with
  | nil =>
      refine ⟨fun member => absurd member List.not_mem_nil, ?_⟩
      rintro (⟨member, _⟩ | ⟨k, b, here, _⟩)
      · exact absurd member List.not_mem_nil
      · exact absurd here (by simp)
  | cons c anchors ih =>
      rw [given]
      by_cases new : c.hseq = -2
      · have new' : isNew c = true := isNew_iff.mpr new
        rw [if_pos new, List.mem_cons, ih, List.filter_cons_of_pos new', List.mem_cons]
        constructor
        · rintro (rfl | ⟨member, old⟩ | ⟨k, b, here, rfl⟩)
          · exact .inr ⟨0, c, rfl, rfl⟩
          · exact .inl ⟨.inr member, old⟩
          · exact .inr ⟨k + 1, b, here, by rw [Nat.add_right_comm, Nat.add_assoc]⟩
        · rintro (⟨rfl | member, old⟩ | ⟨k, b, here, rfl⟩)
          · exact absurd new' (by rw [old]; exact Bool.false_ne_true)
          · exact .inr (.inl ⟨member, old⟩)
          · cases k with
            | zero => exact .inl (by rw [Option.some.inj here, Nat.add_zero])
            | succ k => exact .inr (.inr ⟨k, b, here, by rw [Nat.add_right_comm, Nat.add_assoc]⟩)
      · have old : isNew c = false := decide_eq_false new
        rw [if_neg new, List.mem_cons, ih, List.filter_cons_of_neg (by rw [old]; exact Bool.false_ne_true), List.mem_cons]
        constructor
        · rintro (rfl | ⟨member, known⟩ | new)
          · exact .inl ⟨.inl rfl, old⟩
          · exact .inl ⟨.inr member, known⟩
          · exact .inr new
        · rintro (⟨rfl | member, known⟩ | new)
          · exact .inl rfl
          · exact .inr (.inl ⟨member, known⟩)
          · exact .inr (.inr new)

/-! The table of the new numbers. -/

def entries (total : Nat) (f : Nat → Nat) : List Int := (List.range total).map fun j => (f j : Int)

theorem entries_getElem? {total j : Nat} (f : Nat → Nat) (inside : j < total) : (entries total f)[j]? = some (f j : Int) := by
  rw [entries, List.getElem?_map, List.getElem?_range inside, Option.map_some]

theorem entries_congr {total : Nat} {f g : Nat → Nat} (same : ∀ j, j < total → f j = g j) : entries total f = entries total g :=
  List.map_congr_left fun j member => congrArg Int.ofNat (same j (List.mem_range.mp member))

theorem entries_set (total : Nat) (f : Nat → Nat) (j value : Nat) :
    (entries total f).set j (value : Int) = entries total fun i => if i = j then value else f i := by
  refine List.ext_getElem? fun i => ?_
  rw [entries, entries, List.getElem?_set, List.getElem?_map, List.getElem?_map, List.length_map, List.length_range]
  by_cases inside : i < total
  · rw [List.getElem?_range inside, Option.map_some, Option.map_some]
    by_cases same : j = i
    · rw [if_pos same, if_pos (same ▸ inside), if_pos same.symm]
    · rw [if_neg same, if_neg fun other => same other.symm]
  · rw [List.getElem?_eq_none (by rw [List.length_range]; omega), Option.map_none, Option.map_none]
    split
    · rw [if_neg (by omega)]
    · rfl

theorem wrapShort_nat {n : Nat} (small : n < 2 ^ 15) : wrapShort n = n := by
  rw [wrapShort]
  omega

theorem raise_entries {total : Nat} {rounds j : Nat} {f : Nat → Nat} (inside : j + rounds ≤ total)
    (small : ∀ i, j ≤ i → i < j + rounds → f i + 1 < 2 ^ 15) :
    raise rounds j (entries total f) =
      some (entries total fun i => if j ≤ i ∧ i < j + rounds then f i + 1 else f i) := by
  induction rounds generalizing j f with
  | zero =>
      rw [raise]
      refine congrArg some (entries_congr fun i _ => ?_)
      rw [if_neg (by omega)]
  | succ rounds ih =>
      have here : j < total := by omega
      have next : wrapShort ((f j : Int) + 1) = (f j + 1 : Nat) := wrapShort_nat (small j (Nat.le_refl j) (by omega))
      rw [raise, entries_getElem? f here]
      dsimp only [Option.bind_eq_bind, Option.bind_some]
      rw [next, entries_set, ih (by omega)]
      · refine congrArg some (entries_congr fun i _ => ?_)
        by_cases first : i = j
        · rw [if_neg (by omega), if_pos first, if_pos (by omega), first]
        · rw [if_neg first]
          by_cases raised : j + 1 ≤ i ∧ i < j + 1 + rounds
          · rw [if_pos raised, if_pos (by omega)]
          · rw [if_neg raised, if_neg (by omega)]
      · intro i after before
        rw [if_neg (by omega)]
        exact small i (by omega) (by omega)

theorem makeRoom_entries {count total : Nat} {places : List Nat} {a1 : Option Anchor} {place : Nat}
    (behind : ∀ p ∈ places, p ≤ place) (inside : count + places.length < total) (small : total ≤ 2 ^ 15)
    (found : ∀ a, a1 = some a → a.hseq = place ∧ place < count) (other : a1 = none → place = count) :
    makeRoom (entries total (rank count places)) a1 count (count + places.length) =
      some (entries total (rank count (places ++ [place]))) := by
  cases a1 with
  | none =>
      refine congrArg some (entries_congr fun j _ => ?_)
      rw [rank_concat, other rfl]
      split
      · rw [if_neg (by omega), Nat.add_zero]
      · split
        next last => rw [rank, if_neg (by omega), List.getElem?_eq_none (by omega), last]
        next => rfl
  | some a =>
      obtain ⟨number, old⟩ := found a rfl
      have index : a.hseq.toNat = place := by omega
      have length : (entries total (rank count places)).length = total := by
        rw [entries, List.length_map, List.length_range]
      rw [makeRoom, if_pos (by omega), index, entries_getElem? _ (by omega)]
      dsimp only [Option.bind_eq_bind, Option.bind_some]
      rw [length, if_pos inside, entries_set, raise_entries (by omega)]
      · refine congrArg some (entries_congr fun j _ => ?_)
        rw [rank_concat]
        by_cases known : j < count
        · rw [if_pos known]
          by_cases later : place ≤ j
          · rw [if_pos ⟨later, by omega⟩, if_neg (by omega), if_pos later]
          · rw [if_neg fun both => later both.1, if_neg (by omega), if_neg later, Nat.add_zero]
        · rw [if_neg known, if_neg (by omega)]
          split
          · exact rank_place behind old
          · rfl
      · intro j after before
        have := List.countP_le_length (p := fun p => decide (p ≤ j)) (l := places)
        rw [if_neg (by omega), rank_old (by omega)]
        omega

/-! The markers. -/

theorem markRoom_lt (nmark markmax : Nat) (positive : 0 < nmark) : nmark < markRoom nmark markmax := by
  rw [markRoom]
  split
  · split <;> omega
  · split <;> omega

theorem putHmarker_nat (ml : HmarkerList) (mark : Option BufferPoint) (seq : Nat) :
    ∃ ml', putHmarker ml mark seq = some ml' ∧ ml'.marks[seq]? = some mark ∧
      ml'.marks.length = max ml.marks.length (seq + 1) ∧
        ∀ k m, k ≠ seq → ml.marks[k]? = some m → ml'.marks[k]? = some m := by
  have nmark : (if (ml.marks.length : Int) < seq + 1 then ((seq : Int) + 1).toNat else ml.marks.length) =
      max ml.marks.length (seq + 1) := by
    split <;> omega
  have length : (ml.marks ++ List.replicate (max ml.marks.length (seq + 1) - ml.marks.length) none).length =
      max ml.marks.length (seq + 1) := by
    rw [List.length_append, List.length_replicate]
    omega
  have room := markRoom_lt (max ml.marks.length (seq + 1)) ml.markmax (by omega)
  rw [putHmarker, nmark, if_pos (by omega)]
  refine ⟨_, rfl, ?_, ?_, fun k m other here => ?_⟩
  · dsimp only
    rw [Int.toNat_natCast, List.getElem?_set_self (by rw [length]; omega)]
  · dsimp only
    rw [List.length_set, length]
  · dsimp only
    rw [Int.toNat_natCast, List.getElem?_set_ne (Ne.symm other),
      List.getElem?_append_left (List.getElem?_eq_some_iff.mp here).1, here]

/-! The places of the new links. -/

section Places

variable (page : NumberedBuffer)

def NumberedBuffer.placeOf (a : Anchor) : Nat :=
  match closestNextAnchor page.buffer.known none a.start.pos a.start.line with
  | some c => c.hseq.toNat
  | none => page.buffer.nmark

def NumberedBuffer.placesOf (anchors : List Anchor) : List Nat := (anchors.filter isNew).map page.placeOf

theorem NumberedBuffer.placeOf_closest (a : Anchor) :
    (∃ c ∈ page.buffer.known, bpcmp a.start c.start < 0 ∧ c.hseq = page.placeOf a ∧
        closestNextAnchor page.buffer.known none a.start.pos a.start.line = some c ∧
        ∀ b ∈ page.buffer.known, bpcmp a.start b.start < 0 → bpcmp c.start b.start ≤ 0) ∨
      closestNextAnchor page.buffer.known none a.start.pos a.start.line = none ∧
        page.placeOf a = page.buffer.nmark ∧ ∀ b ∈ page.buffer.known, ¬ bpcmp a.start b.start < 0 := by
  have closest : Closest a.start.pos a.start.line page.buffer.known none _ := closestNextAnchor_closest _ _
  rw [NumberedBuffer.placeOf]
  cases found : closestNextAnchor page.buffer.known none a.start.pos a.start.line with
  | none =>
      refine .inr ⟨rfl, rfl, fun b member behind => ?_⟩
      exact (closest.none found).2 b member ⟨(page.numbered b member).1, behind⟩
  | some c =>
      obtain ⟨origin, before, -⟩ := closest.some c found
      rcases origin with ⟨member, -, behind⟩ | other
      · refine .inl ⟨c, member, behind, ?_, rfl, fun b there after => ?_⟩
        · exact (Int.toNat_of_nonneg (page.numbered c member).1).symm
        · exact before b there ⟨(page.numbered b there).1, after⟩
      · exact absurd other (by simp)

theorem NumberedBuffer.placeOf_le (a : Anchor) : page.placeOf a ≤ page.buffer.nmark := by
  rcases page.placeOf_closest a with ⟨c, member, -, number, -⟩ | ⟨-, place, -⟩
  · have := page.numbered c member
    omega
  · exact Nat.le_of_eq place

/-- A new link goes in front of the numbers of which an anchor is behind it. -/
theorem NumberedBuffer.placeOf_le_iff (a : Anchor) {number : Nat} (old : number < page.buffer.nmark) :
    page.placeOf a ≤ number ↔ ∃ c ∈ page.buffer.known, c.hseq = number ∧ bpcmp a.start c.start < 0 := by
  rcases page.placeOf_closest a with ⟨c, member, behind, place, -, closest⟩ | ⟨-, place, nothing⟩
  · constructor
    · intro le
      rcases Nat.lt_or_eq_of_le le with less | equal
      · obtain ⟨first, ⟨there, number', -⟩, -⟩ := page.marked number old
        refine ⟨first, there, number', ?_⟩
        have order := page.increasing first there c member
        rw [bpcmp_nonpos] at order
        rw [bpcmp_neg] at behind ⊢
        omega
      · exact ⟨c, member, by rw [place, equal], behind⟩
    · rintro ⟨b, there, number', after⟩
      have := page.increasing c member b there (closest b there after)
      omega
  · constructor
    · intro le
      omega
    · rintro ⟨b, there, -, after⟩
      exact absurd after (nothing b there)

theorem NumberedBuffer.placeOf_mono {a b : Anchor} (order : bpcmp a.start b.start ≤ 0) :
    page.placeOf a ≤ page.placeOf b := by
  rcases Nat.lt_or_eq_of_le (page.placeOf_le b) with old | last
  · obtain ⟨c, member, number, behind⟩ := (page.placeOf_le_iff b old).mp (Nat.le_refl _)
    refine (page.placeOf_le_iff a old).mpr ⟨c, member, number, ?_⟩
    rw [bpcmp_nonpos] at order
    rw [bpcmp_neg] at behind ⊢
    omega
  · rw [last]
    exact page.placeOf_le a

theorem NumberedBuffer.placesOf_sorted {anchors : List Anchor} (sorted : SortedByStart anchors) :
    (page.placesOf anchors).Pairwise (· ≤ ·) := by
  rw [NumberedBuffer.placesOf, List.pairwise_map]
  exact (sorted.sublist List.filter_sublist).imp page.placeOf_mono

theorem NumberedBuffer.placesOf_le (anchors : List Anchor) : ∀ p ∈ page.placesOf anchors, p ≤ page.buffer.nmark := by
  intro p member
  obtain ⟨a, -, rfl⟩ := List.mem_map.mp member
  exact page.placeOf_le a

theorem NumberedBuffer.placesOf_length (anchors : List Anchor) :
    (page.placesOf anchors).length = anchors.countP isNew := by
  rw [NumberedBuffer.placesOf, List.length_map, List.countP_eq_length_filter]

theorem NumberedBuffer.placesOf_new {seen : List Anchor} {a : Anchor} (new : isNew a = true) :
    page.placesOf (seen ++ [a]) = page.placesOf seen ++ [page.placeOf a] := by
  rw [NumberedBuffer.placesOf, List.filter_append, List.filter_cons_of_pos new, List.filter_nil, List.map_append]
  rfl

end Places

/-! The anchors that the search sees in the loop. -/

section Visited

variable {x y : Int}

theorem closest_known (anchors : List Anchor) (an : Option Anchor) :
    closestNextAnchor anchors an x y = closestNextAnchor (anchors.filter fun a => !isNew a) an x y := by
  induction anchors generalizing an with
  | nil => rfl
  | cons a anchors ih =>
      cases new : isNew a with
      | true =>
          have skipped : closerNext x y an a = an := closerNext_skip fun behind => by
            have := behind.1
            have := isNew_iff.mp new
            omega
          rw [List.filter_cons_of_neg (by simp [new]), ← ih, closestNextAnchor, List.foldl_cons, skipped]
          rfl
      | false =>
          rw [List.filter_cons_of_pos (by simp [new]), closestNextAnchor, List.foldl_cons]
          exact ih _

theorem closest_given {n : Nat} {anchors : List Anchor} (an : Option Anchor)
    (front : ∀ a ∈ anchors, ¬ bpcmp ⟨y, x⟩ a.start < 0) :
    closestNextAnchor (given n anchors) an x y = closestNextAnchor (anchors.filter fun a => !isNew a) an x y := by
  induction anchors generalizing n an with
  | nil => rfl
  | cons a anchors ih =>
      have later := fun b member => front b (.tail a member)
      rw [given]
      by_cases new : a.hseq = -2
      · have skipped : closerNext x y an { a with hseq := n } = an :=
          closerNext_skip fun behind => front a (.head _) behind.2
        rw [if_pos new, List.filter_cons_of_neg (by simp [isNew_iff.mpr new]), ← ih an later, closestNextAnchor,
          List.foldl_cons, skipped]
        rfl
      · have old : isNew a = false := decide_eq_false new
        rw [if_neg new, List.filter_cons_of_pos (by simp [old]), closestNextAnchor, List.foldl_cons]
        exact ih _ later

theorem closest_append (anchors others : List Anchor) (an : Option Anchor) :
    closestNextAnchor (anchors ++ others) an x y =
      closestNextAnchor others (closestNextAnchor anchors an x y) x y := List.foldl_append

theorem closest_visited {seen rest : List Anchor} {a : Anchor} (n m : Nat) (an : Option Anchor)
    (sorted : SortedByStart (seen ++ a :: rest)) (new : isNew a = true) :
    closestNextAnchor (given n seen ++ { a with hseq := m } :: rest) an a.start.pos a.start.line =
      closestNextAnchor ((seen ++ a :: rest).filter fun a => !isNew a) an a.start.pos a.start.line := by
  have front : ∀ b ∈ seen, ¬ bpcmp ⟨a.start.line, a.start.pos⟩ b.start < 0 := by
    intro b member behind
    have order := (List.pairwise_append.mp sorted).2.2 b member a (.head _)
    rw [bpcmp_nonpos] at order
    rw [bpcmp_neg] at behind
    dsimp only at behind
    omega
  have itself : ∀ an, closerNext a.start.pos a.start.line an { a with hseq := m } = an := fun an =>
    closerNext_skip fun behind => by
      have := (bpcmp_neg _ _).mp behind.2
      dsimp only at this
      omega
  rw [List.filter_append, closest_append, closest_append, closest_given an front,
    List.filter_cons_of_neg (by simp [new]), ← closest_known rest]
  rw [closestNextAnchor, List.foldl_cons, itself]
  rfl

end Visited

end KcnTools.Anchors
