import KcnTools.Lib.Buffer
import KcnTools.Protocol.PathClean

/-! Cleaning up file names (indep.c): `cleanupName` edits a copy of the name in place, with
one cursor in the copy and one in the name. -/

namespace KcnTools.W3m

open KcnTools.Path
open KcnTools.Protocols (byteAt cString dirSep dropElement upElement hereElement cString_append_nul)

def written (kept : List (List UInt8)) : List UInt8 := (rooted 47 kept.reverse).reverse

theorem written_cons (element : List UInt8) (kept : List (List UInt8)) :
    written (element :: kept) = element.reverse ++ 47 :: written kept := by
  rw [written, List.reverse_cons, rooted_append, List.reverse_append, written]
  simp [rooted]

theorem written_reverse (kept : List (List UInt8)) : (written kept).reverse = rooted 47 kept.reverse := by
  rw [written, List.reverse_reverse]

theorem dirSep_iff (c : UInt8) : dirSep c = true ↔ c = 47 := by
  rw [dirSep, beq_iff_eq]

def startsAt (buf : List UInt8) (p : Nat) (text : List UInt8) : Bool := text.isPrefixOf (cString (buf.drop p))

def isAt (buf : List UInt8) (p : Nat) (text : List UInt8) : Bool := cString (buf.drop p) == text

def appendTo (buf text : List UInt8) : Option (List UInt8) :=
  Buffer.write buf (cString buf).length (text ++ [0])

def keepsUp (buf : List UInt8) (p : Nat) : Bool :=
  p == 2 && startsAt buf 0 [46, 46] || decide (3 ≤ p) && startsAt buf (p - 3) [47, 46, 46]

def backToSlash (buf : List UInt8) : Nat → Nat
  | 0 => 0
  | p + 1 => if byteAt buf p = 47 then p else backToSlash buf p

def cutAt (buf : List UInt8) (p : Nat) (rest : List UInt8) : Option (List UInt8) :=
  (Buffer.write buf p [0]).bind fun buf => appendTo buf rest

def cleanupLoop (name : List UInt8) : Nat → List UInt8 → Nat → Nat → Option (List UInt8)
  | 0, _, _, _ => none
  | fuel + 1, buf, p, q =>
      if name.length < q then none
      else if byteAt name q = 0 then some buf
      else if startsAt buf p [47, 46, 46, 47] then
        if keepsUp buf p then cleanupLoop name fuel buf (p + 3) (q + 3)
        else
          let p := backToSlash buf p
          (cutAt buf p (name.drop (q + 3))).bind fun buf => cleanupLoop name fuel buf p (q + 3)
      else if isAt buf p [47, 46, 46] then
        if keepsUp buf p then some buf else Buffer.write buf ((backToSlash buf p : Nat) + 1) [0]
      else if startsAt buf p [47, 46, 47] then
        (cutAt buf p (name.drop (q + 2))).bind fun buf => cleanupLoop name fuel buf p (q + 2)
      else if isAt buf p [47, 46] then Buffer.write buf (p + 1) [0]
      else if startsAt buf p [47, 47] then
        (cutAt buf p (name.drop (q + 1))).bind fun buf => cleanupLoop name fuel buf p (q + 1)
      else cleanupLoop name fuel buf (p + 1) (q + 1)

def cleanupName (name : List UInt8) : Option (List UInt8) :=
  (cleanupLoop name (name.length + 1) (name ++ [0]) 0 0).map cString

structure Copy (name buf out rest : List UInt8) (q : Nat) : Prop where
  text : ∃ junk, buf = out.reverse ++ (rest ++ 0 :: junk)
  size : buf.length = name.length + 1
  left : name.drop q = rest
  inside : q ≤ name.length
  noNul : 0 ∉ out.reverse ++ rest

namespace Copy

variable {name buf out rest : List UInt8} {q : Nat}

theorem cString_drop (copy : Copy name buf out rest q) : cString (buf.drop out.length) = rest := by
  obtain ⟨junk, whole⟩ := copy.text
  have noNul := copy.noNul
  rw [List.mem_append, not_or] at noNul
  rw [whole, ← List.length_reverse, List.drop_left, cString_append_nul noNul.2]

theorem cString_eq (copy : Copy name buf out rest q) : cString buf = out.reverse ++ rest := by
  obtain ⟨junk, whole⟩ := copy.text
  rw [whole, ← List.append_assoc, cString_append_nul copy.noNul]

theorem startsAt_eq (copy : Copy name buf out rest q) (text : List UInt8) :
    startsAt buf out.length text = text.isPrefixOf rest := by
  rw [startsAt, copy.cString_drop]

theorem isAt_eq (copy : Copy name buf out rest q) (text : List UInt8) :
    isAt buf out.length text = decide (rest = text) := by
  rw [isAt, copy.cString_drop, beq_eq_decide]

theorem cString_before {name buf first out rest : List UInt8} {q : Nat}
    (copy : Copy name buf (first ++ out) rest q) : cString (buf.drop out.length) = first.reverse ++ rest := by
  obtain ⟨junk, whole⟩ := copy.text
  have noNul : 0 ∉ first.reverse ++ rest := by
    intro member
    apply copy.noNul
    rw [List.reverse_append, List.append_assoc]
    exact List.mem_append_right _ member
  rw [whole, List.reverse_append, List.append_assoc, ← List.length_reverse, List.drop_left, ← List.append_assoc,
    cString_append_nul noNul]

theorem advance {c : UInt8} (copy : Copy name buf out (c :: rest) q) : Copy name buf (c :: out) rest (q + 1) := by
  obtain ⟨junk, whole⟩ := copy.text
  have left := copy.left
  have count := congrArg List.length left
  rw [List.length_drop, List.length_cons] at count
  refine ⟨⟨junk, by simpa using whole⟩, copy.size, ?_, by omega, by simpa using copy.noNul⟩
  rw [← List.drop_drop, left]
  rfl

theorem byteAt_left (copy : Copy name buf out rest q) : byteAt name q = rest.headD 0 := by
  have left := copy.left
  rw [byteAt, List.getD_eq_getElem?_getD, ← List.head?_drop, left]
  cases rest <;> rfl

theorem end_eq (copy : Copy name buf out rest q) {k : Nat} (inside : k ≤ out.length + rest.length) :
    ∃ final, Buffer.write buf k [0] = some final ∧ cString final = (out.reverse ++ rest).take k := by
  obtain ⟨junk, whole⟩ := copy.text
  have count : ((out.reverse ++ rest).take k).length = k := by
    rw [List.length_take, List.length_append, List.length_reverse]
    omega
  have split : buf = (out.reverse ++ rest).take k ++ ((out.reverse ++ rest).drop k ++ 0 :: junk) := by
    rw [← List.append_assoc, List.take_append_drop, whole, List.append_assoc]
  have room : ([0] : List UInt8).length ≤ ((out.reverse ++ rest).drop k ++ 0 :: junk).length := by
    simp only [List.length_append, List.length_cons, List.length_nil]
    omega
  have written := Buffer.write_behind ((out.reverse ++ rest).take k) room
  rw [← split, count] at written
  refine ⟨_, written, cString_append_nul ?_ _⟩
  intro member
  exact copy.noNul (List.mem_of_mem_take member)

/-- Cutting the copy where the last bytes of `out` begin, and skipping some of the name. -/
theorem cutAt_eq (copy : Copy name buf out rest q) {shorter : List UInt8} (suffix : shorter <:+ out)
    {skipped : Nat} (bound : skipped ≤ rest.length) :
    ∃ next, cutAt buf shorter.length (name.drop (q + skipped)) = some next ∧
      Copy name next shorter (rest.drop skipped) (q + skipped) := by
  obtain ⟨dropped, rfl⟩ := suffix
  obtain ⟨junk, whole⟩ := copy.text
  have left := copy.left
  have noNul := copy.noNul
  have inside := copy.inside
  have size := copy.size
  have tail : name.drop (q + skipped) = rest.drop skipped := by rw [← left, List.drop_drop]
  have count := congrArg List.length left
  rw [List.length_drop] at count
  have first : 0 ∉ shorter.reverse := by
    intro member
    apply noNul
    simp only [List.reverse_append, List.mem_append]
    exact Or.inl (Or.inl member)
  have last : 0 ∉ rest.drop skipped := by
    intro member
    exact noNul (List.mem_append_right _ (List.mem_of_mem_drop member))
  obtain ⟨behind, split⟩ : ∃ behind, buf = shorter.reverse ++ behind := by
    refine ⟨dropped.reverse ++ (rest ++ 0 :: junk), ?_⟩
    rw [whole, List.reverse_append, List.append_assoc]
  have more : (rest.drop skipped).length < behind.length := by
    have lengths := congrArg List.length (whole.symm.trans split)
    simp only [List.length_append, List.length_reverse, List.length_cons] at lengths
    rw [List.length_drop]
    omega
  have cut : Buffer.write buf shorter.length [0] = some (shorter.reverse ++ ([0] ++ behind.drop 1)) := by
    rw [split, ← List.length_reverse, Buffer.write_behind _ (by simp only [List.length_singleton]; omega)]
    rfl
  have room : (rest.drop skipped ++ [0]).length ≤ ([0] ++ behind.drop 1).length := by
    simp only [List.length_append, List.length_singleton, List.length_drop] at more ⊢
    omega
  refine ⟨shorter.reverse ++ (rest.drop skipped ++ [0] ++
    ([0] ++ behind.drop 1).drop (rest.drop skipped ++ [0]).length), ?_, ?_⟩
  · rw [cutAt, cut, Option.bind_some, appendTo, tail, List.singleton_append, cString_append_nul first,
      ← List.singleton_append, Buffer.write_behind _ room]
  · refine ⟨⟨_, by rw [List.append_assoc]; rfl⟩, ?_, tail, ?_, ?_⟩
    · have lengths := congrArg List.length split
      simp only [List.length_append, List.length_reverse, List.length_singleton, List.length_drop]
        at lengths more room ⊢
      omega
    · omega
    · rw [List.mem_append, not_or]
      exact ⟨first, last⟩

end Copy

theorem backToSlash_eq {element : List UInt8} (plain : ∀ c ∈ element, c ≠ 47) (out junk : List UInt8) :
    backToSlash ((element ++ 47 :: out).reverse ++ junk) (element ++ 47 :: out).length = out.length := by
  induction element generalizing junk with
  | nil =>
      have here : byteAt ((47 :: out).reverse ++ junk) out.length = 47 := by
        simp [byteAt, List.getD_eq_getElem?_getD]
      rw [List.nil_append, List.length_cons, backToSlash, if_pos here]
  | cons c element ih =>
      have here : byteAt ((c :: element ++ 47 :: out).reverse ++ junk) (element ++ 47 :: out).length = c := by
        rw [byteAt, List.getD_eq_getElem?_getD, List.cons_append, List.reverse_cons, List.append_assoc,
          ← List.length_reverse, List.getElem?_append_right (Nat.le_refl _)]
        simp
      have next := ih (fun d member => plain d (List.mem_cons_of_mem _ member)) (c :: junk)
      rw [List.cons_append, List.length_cons, backToSlash, ← List.cons_append, here,
        if_neg (plain c List.mem_cons_self), ← next]
      simp

variable {name : List UInt8}

theorem cleanupLoop_end {buf out : List UInt8} {q fuel : Nat} (copy : Copy name buf out [] q) :
    cleanupLoop name (fuel + 1) buf out.length q = some buf := by
  have stop : byteAt name q = 0 := copy.byteAt_left
  rw [cleanupLoop, if_neg (Nat.not_lt.mpr copy.inside), if_pos stop]

theorem cleanupLoop_step {buf out rest : List UInt8} {c : UInt8} {q fuel : Nat}
    (copy : Copy name buf out (c :: rest) q)
    (plain : c = 47 → ∀ special ∈ [[46, 46, 47], [46, 47], [47]], ¬ special <+: rest)
    (last : c = 47 → rest ≠ [46, 46] ∧ rest ≠ [46]) :
    cleanupLoop name (fuel + 1) buf out.length q = cleanupLoop name fuel buf (c :: out).length (q + 1) := by
  have named : byteAt name q ≠ 0 := by
    rw [copy.byteAt_left]
    rintro rfl
    exact copy.noNul (List.mem_append_right _ List.mem_cons_self)
  have starts : ∀ special ∈ [[46, 46, 47], [46, 47], [47]],
      startsAt buf out.length (47 :: special) = false := by
    intro special member
    rw [copy.startsAt_eq, List.isPrefixOf_cons_cons, Bool.and_eq_false_iff, beq_eq_false_iff_ne]
    by_cases slash : c = 47
    · refine Or.inr (Bool.eq_false_iff.mpr fun found => ?_)
      exact plain slash special member (List.isPrefixOf_iff_prefix.mp found)
    · exact Or.inl fun same => slash same.symm
  have ends : ∀ special, (c = 47 → rest ≠ special) → isAt buf out.length (47 :: special) = false := by
    intro special other
    rw [copy.isAt_eq, decide_eq_false_iff_not, List.cons.injEq]
    exact fun ⟨slash, same⟩ => other slash same
  rw [cleanupLoop, if_neg (Nat.not_lt.mpr copy.inside), if_neg named, starts _ (by simp),
    ends _ (fun slash => (last slash).1), starts [46, 47] (by simp), ends _ (fun slash => (last slash).2),
    starts [47] (by simp)]
  rfl

theorem cleanupLoop_copy {element buf out rest : List UInt8} (plain : ∀ c ∈ element, c ≠ 47) {q : Nat}
    (copy : Copy name buf out (element ++ rest) q) (fuel : Nat) :
    cleanupLoop name (fuel + element.length) buf out.length q =
      cleanupLoop name fuel buf (element.reverse ++ out).length (q + element.length) ∧
    Copy name buf (element.reverse ++ out) rest (q + element.length) := by
  induction element generalizing out q with
  | nil => exact ⟨rfl, copy⟩
  | cons c element ih =>
      have other := plain c List.mem_cons_self
      have step := @cleanupLoop_step _ _ _ _ _ _ (fuel + element.length) copy (fun slash => absurd slash other)
        fun slash => absurd slash other
      have next := ih (fun d member => plain d (List.mem_cons_of_mem _ member)) copy.advance
      rw [List.length_cons, List.reverse_cons, List.append_assoc, List.singleton_append,
        ← Nat.add_assoc fuel, Nat.add_comm element.length 1, ← Nat.add_assoc q, step]
      exact next

/-- The first byte of the text makes an element `..` at its start impossible, and no kept element is one. -/
theorem keepsUp_written {buf rest : List UInt8} {q : Nat} {kept : List (List UInt8)}
    (regular : ∀ element ∈ kept, Regular upElement hereElement element)
    (plain : ∀ element ∈ kept, ∀ c ∈ element, c ≠ 47)
    (copy : Copy name buf (written kept) rest q) : keepsUp buf (written kept).length = false := by
  cases kept with
  | nil => rfl
  | cons element kept =>
      have named := regular element List.mem_cons_self
      have bytes := plain element List.mem_cons_self
      have first : startsAt buf 0 [46, 46] = false := by
        rw [startsAt, List.drop_zero, copy.cString_eq, written_reverse, List.reverse_cons, rooted_append]
        cases kept.reverse <;> rfl
      have before : 3 ≤ (written (element :: kept)).length →
          startsAt buf ((written (element :: kept)).length - 3) [47, 46, 46] = false := by
        intro long
        have split := List.take_append_drop 3 (written (element :: kept))
        rw [← split] at copy
        have text := copy.cString_before
        rw [List.length_drop] at text
        rw [startsAt, text, written_cons, Bool.eq_false_iff]
        have noSlash : ∀ c ∈ element.reverse, c ≠ 47 := fun c member => bytes c (List.mem_reverse.mp member)
        have notUp : element.reverse ≠ [46, 46] := by
          intro same
          exact named.1 (by rw [← List.reverse_reverse element, same]; rfl)
        have nonempty : element.reverse ≠ [] := by simpa using named.2.1
        rw [written_cons] at long
        generalize element.reverse = reversed at *
        match reversed, noSlash, notUp, nonempty, long with
        | [], _, _, nonempty, _ => exact absurd rfl nonempty
        | [a], _, _, _, long =>
            cases out : written kept with
            | nil => simp [out] at long
            | cons c out => simp
        | [a, b], _, notUp, _, _ =>
            simp at notUp ⊢
            exact fun second first => notUp first.symm second.symm
        | a :: b :: c :: bytes, noSlash, _, _, _ =>
            have other := noSlash c (by simp)
            simp [Ne.symm other]
      rw [keepsUp, first, Bool.and_false, Bool.false_or, Bool.and_eq_false_iff]
      by_cases long : 3 ≤ (written (element :: kept)).length
      · exact Or.inr (before long)
      · exact Or.inl (decide_eq_false long)

theorem regular_special {element tail : List UInt8} (regular : Regular upElement hereElement element)
    (plain : ∀ c ∈ element, c ≠ 47) (ends : tail = [] ∨ ∃ rest, tail = 47 :: rest) :
    (∀ special ∈ [[46, 46, 47], [46, 47], [47]], ¬ special <+: element ++ tail) ∧
      element ++ tail ≠ [46, 46] ∧ element ++ tail ≠ [46] := by
  obtain ⟨notUp, named, notHere⟩ := regular
  match element, notUp, named, notHere, plain with
  | [], _, named, _, _ => exact absurd rfl named
  | [a], _, _, notHere, plain =>
      have other := plain a (by simp)
      have single : a ≠ 46 := fun same => notHere (by rw [same]; rfl)
      simp [Ne.symm other, Ne.symm single, single]
  | [a, b], notUp, _, _, plain =>
      have first := plain a (by simp)
      have second := plain b (by simp)
      have pair : a = 46 → b ≠ 46 := fun left right => notUp (by rw [left, right]; rfl)
      rcases ends with rfl | ⟨rest, rfl⟩
      · simp [Ne.symm first, Ne.symm second]
        exact pair
      · simp [Ne.symm first, Ne.symm second]
        exact fun left right => pair left.symm right.symm
  | a :: b :: c :: bytes, _, _, _, plain =>
      have first := plain a (by simp)
      have second := plain b (by simp)
      have third := plain c (by simp)
      simp [Ne.symm first, Ne.symm second, Ne.symm third]

theorem resolve_cons (kept : List (List UInt8)) (element : List UInt8) (rest : List (List UInt8)) :
    resolve upElement hereElement kept (element :: rest) =
      resolve upElement hereElement (resolve upElement hereElement kept [element]) rest :=
  resolve_append upElement hereElement kept [element] rest

theorem resolve_of_kind (kept : List (List UInt8)) (element : List UInt8) :
    element = [] ∧ resolve upElement hereElement kept [element] = kept ∨
    element = hereElement ∧ resolve upElement hereElement kept [element] = kept ∨
    element = upElement ∧ resolve upElement hereElement kept [element] = kept.tail ∨
    Regular upElement hereElement element ∧
      resolve upElement hereElement kept [element] = element :: kept := by
  by_cases isUp : element = upElement
  · exact Or.inr (Or.inr (Or.inl ⟨isUp, by rw [resolve, if_pos isUp]; rfl⟩))
  by_cases isEmpty : element = []
  · exact Or.inl ⟨isEmpty, by rw [resolve, if_neg isUp, if_pos (Or.inl isEmpty)]; rfl⟩
  by_cases isHere : element = hereElement
  · exact Or.inr (Or.inl ⟨isHere, by rw [resolve, if_neg isUp, if_pos (Or.inr isHere)]; rfl⟩)
  · refine Or.inr (Or.inr (Or.inr ⟨⟨isUp, isEmpty, isHere⟩, ?_⟩))
    rw [resolve, if_neg isUp, if_neg (not_or.mpr ⟨isEmpty, isHere⟩)]
    rfl

theorem named_of_slash {buf out rest : List UInt8} {q : Nat} (copy : Copy name buf out (47 :: rest) q) :
    byteAt name q ≠ 0 := by
  have head : byteAt name q = 47 := copy.byteAt_left
  rw [head]
  decide

theorem backToSlash_written {buf rest : List UInt8} {q : Nat} {kept : List (List UInt8)}
    (plain : ∀ element ∈ kept, ∀ c ∈ element, c ≠ 47) (copy : Copy name buf (written kept) rest q) :
    backToSlash buf (written kept).length = (written kept.tail).length := by
  cases kept with
  | nil => rfl
  | cons element kept =>
      obtain ⟨junk, whole⟩ := copy.text
      rw [whole, written_cons]
      apply backToSlash_eq
      intro c member
      exact plain element List.mem_cons_self c (List.mem_reverse.mp member)

theorem written_tail_suffix (kept : List (List UInt8)) : written kept.tail <:+ written kept := by
  cases kept with
  | nil => exact List.suffix_rfl
  | cons element kept =>
      rw [written_cons]
      exact (List.suffix_cons 47 _).trans (List.suffix_append _ _)

theorem cleanupLoop_element {buf element rest : List UInt8} {q fuel : Nat} {kept : List (List UInt8)}
    (regular : ∀ element ∈ kept, Regular upElement hereElement element)
    (plain : ∀ element ∈ kept, ∀ c ∈ element, c ≠ 47) (bytes : ∀ c ∈ element, c ≠ 47)
    (copy : Copy name buf (written kept) (47 :: (element ++ 47 :: rest)) q)
    (enough : (47 :: (element ++ 47 :: rest)).length < fuel) :
    ∃ buf' q' fuel', (47 :: rest).length < fuel' ∧
      Copy name buf' (written (resolve upElement hereElement kept [element])) (47 :: rest) q' ∧
      cleanupLoop name fuel buf (written kept).length q =
        cleanupLoop name fuel' buf' (written (resolve upElement hereElement kept [element])).length q' := by
  obtain ⟨fuel, rfl⟩ : ∃ n, fuel = n + 1 := ⟨fuel - 1, by omega⟩
  have inside := Nat.not_lt.mpr copy.inside
  have named := named_of_slash copy
  rw [List.length_cons, List.length_append, List.length_cons] at enough
  rcases resolve_of_kind kept element with ⟨rfl, same⟩ | ⟨rfl, same⟩ | ⟨rfl, dropped⟩ | ⟨kind, added⟩
  · rw [same]
    obtain ⟨next, cut, held⟩ := copy.cutAt_eq List.suffix_rfl (show 1 ≤ _ by simp)
    refine ⟨next, q + 1, fuel, by simp at enough ⊢; omega, held, ?_⟩
    rw [cleanupLoop, if_neg inside, if_neg named]
    simp [copy.startsAt_eq, copy.isAt_eq, cut]
  · rw [same]
    obtain ⟨next, cut, held⟩ := copy.cutAt_eq List.suffix_rfl (show 2 ≤ _ by simp [hereElement])
    refine ⟨next, q + 2, fuel, by simp [hereElement] at enough ⊢; omega, held, ?_⟩
    rw [cleanupLoop, if_neg inside, if_neg named]
    simp [copy.startsAt_eq, copy.isAt_eq, cut, hereElement]
  · rw [dropped]
    obtain ⟨next, cut, held⟩ := copy.cutAt_eq (written_tail_suffix kept) (show 3 ≤ _ by simp [upElement])
    refine ⟨next, q + 3, fuel, by simp [upElement] at enough ⊢; omega, held, ?_⟩
    rw [cleanupLoop, if_neg inside, if_neg named]
    simp [copy.startsAt_eq, keepsUp_written regular plain copy, backToSlash_written plain copy, cut, upElement]
  · rw [added, written_cons]
    obtain ⟨specials, lasts⟩ := @regular_special _ (47 :: rest) kind bytes (Or.inr ⟨rest, rfl⟩)
    obtain ⟨moved, held⟩ := cleanupLoop_copy bytes copy.advance (fuel - element.length)
    refine ⟨buf, q + 1 + element.length, fuel - element.length, by rw [List.length_cons]; omega, held, ?_⟩
    rw [cleanupLoop_step copy (fun _ => specials) fun _ => lasts, ← moved]
    congr 1
    omega

theorem written_slash (kept : List (List UInt8)) (text : List UInt8) :
    ∃ rest, (written kept).reverse ++ 47 :: text = (written kept.tail).reverse ++ 47 :: rest := by
  cases kept with
  | nil => exact ⟨text, rfl⟩
  | cons element kept => exact ⟨element ++ 47 :: text, by simp [written_cons]⟩

def leadsToDirectory (elements : List (List UInt8)) : Bool :=
  let last := elements.getLastD []
  last == [] || last == hereElement || last == upElement

def directoryMark (elements : List (List UInt8)) : List UInt8 := if leadsToDirectory elements then [47] else []

theorem cleanupLoop_last {buf element : List UInt8} {q fuel : Nat} {kept : List (List UInt8)}
    (regular : ∀ element ∈ kept, Regular upElement hereElement element)
    (plain : ∀ element ∈ kept, ∀ c ∈ element, c ≠ 47) (bytes : ∀ c ∈ element, c ≠ 47)
    (copy : Copy name buf (written kept) (47 :: element) q) (enough : (47 :: element).length < fuel) :
    ∃ final, cleanupLoop name fuel buf (written kept).length q = some final ∧
      cString final = rooted 47 (resolve upElement hereElement kept [element]).reverse ++ directoryMark [element] := by
  obtain ⟨fuel, rfl⟩ : ∃ n, fuel = n + 2 := ⟨fuel - 2, by rw [List.length_cons] at enough; omega⟩
  have inside := Nat.not_lt.mpr copy.inside
  have named := named_of_slash copy
  rw [List.length_cons] at enough
  rcases resolve_of_kind kept element with ⟨rfl, same⟩ | ⟨rfl, same⟩ | ⟨rfl, dropped⟩ | ⟨kind, added⟩
  · have step := @cleanupLoop_step _ _ _ _ _ _ (fuel + 1) copy (by simp) (by simp)
    refine ⟨buf, by rw [step, cleanupLoop_end copy.advance], ?_⟩
    rw [same, copy.cString_eq, written_reverse]
    rfl
  · obtain ⟨final, ended, text⟩ := copy.end_eq (show (written kept).length + 1 ≤ _ by simp)
    refine ⟨final, ?_, ?_⟩
    · rw [cleanupLoop, if_neg inside, if_neg named]
      simpa [copy.startsAt_eq, copy.isAt_eq, hereElement] using ended
    · rw [same, text, ← List.length_reverse, List.take_length_add_append, written_reverse]
      rfl
  · obtain ⟨before, split⟩ := written_tail_suffix kept
    have short : (written kept.tail).length ≤ (written kept).length := by
      rw [← split, List.length_append]
      omega
    obtain ⟨final, ended, text⟩ := copy.end_eq (k := (written kept.tail).length + 1) (by rw [List.length_cons]; omega)
    refine ⟨final, ?_, ?_⟩
    · rw [cleanupLoop, if_neg inside, if_neg named]
      simpa [copy.startsAt_eq, copy.isAt_eq, upElement, keepsUp_written regular plain copy,
        backToSlash_written plain copy] using ended
    · obtain ⟨rest, slash⟩ := written_slash kept upElement
      rw [dropped, text, slash, ← List.length_reverse, List.take_length_add_append, written_reverse]
      rfl
  · rw [added]
    obtain ⟨specials, lasts⟩ := @regular_special _ [] kind bytes (Or.inl rfl)
    rw [List.append_nil] at specials lasts
    have start := copy.advance
    rw [← List.append_nil element] at start
    obtain ⟨moved, held⟩ := cleanupLoop_copy bytes start (fuel + 1 - element.length)
    obtain ⟨left, count⟩ : ∃ n, fuel + 1 - element.length = n + 1 := ⟨fuel - element.length, by omega⟩
    rw [count] at moved
    refine ⟨buf, ?_, ?_⟩
    · rw [cleanupLoop_step copy (fun _ => specials) fun _ => lasts, ← @cleanupLoop_end _ _ _ _ left held, ← moved]
      congr 1
      omega
    · have stays : directoryMark [element] = [] := by
        simp [directoryMark, leadsToDirectory, kind.1, kind.2.1, kind.2.2]
      rw [held.cString_eq, stays, List.append_nil, List.append_nil, ← written_reverse, written_cons]

theorem cleanupLoop_elements {elements : List (List UInt8)} (nonempty : elements ≠ [])
    (bytes : ∀ element ∈ elements, ∀ c ∈ element, c ≠ 47) {buf : List UInt8} {q fuel : Nat}
    {kept : List (List UInt8)} (regular : ∀ element ∈ kept, Regular upElement hereElement element)
    (plain : ∀ element ∈ kept, ∀ c ∈ element, c ≠ 47)
    (copy : Copy name buf (written kept) (rooted 47 elements) q) (enough : (rooted 47 elements).length < fuel) :
    ∃ final, cleanupLoop name fuel buf (written kept).length q = some final ∧
      cString final = rooted 47 (resolve upElement hereElement kept elements).reverse ++ directoryMark elements := by
  induction elements generalizing buf q fuel kept with
  | nil => exact absurd rfl nonempty
  | cons element elements ih =>
      have first := bytes element List.mem_cons_self
      cases elements with
      | nil =>
          have single : rooted 47 [element] = 47 :: element := by simp [rooted]
          rw [single] at copy enough
          exact cleanupLoop_last regular plain first copy enough
      | cons next elements =>
          have whole : rooted 47 (element :: next :: elements) =
              47 :: (element ++ 47 :: (next ++ rooted 47 elements)) := by
            simp [rooted]
          rw [whole] at copy enough
          obtain ⟨buf', q', fuel', more, held, moved⟩ := cleanupLoop_element regular plain first copy enough
          have kinds : ∀ other ∈ resolve upElement hereElement kept [element], ∀ c ∈ other, c ≠ 47 := by
            intro other member
            rcases mem_resolve upElement hereElement member with old | new
            · exact plain other old
            · obtain rfl := List.mem_singleton.mp new
              exact first
          obtain ⟨final, ended, text⟩ := ih (by simp) (fun other member => bytes other (List.mem_cons_of_mem _ member))
            (resolve_regular upElement hereElement regular _) kinds held more
          refine ⟨final, moved.trans ended, ?_⟩
          rw [text, ← resolve_cons]
          rfl

theorem leadsToDirectory_iff (rest : List UInt8) :
    leadsToDirectory (components dirSep rest) = true ↔
      [47] <:+ 47 :: rest ∨ [47, 46] <:+ 47 :: rest ∨ [47, 46, 46] <:+ 47 :: rest := by
  have bytes := components_plain dirSep rest
  have nonempty := components_ne_nil dirSep rest
  rw [← rooted_components dirSep dirSep_iff rest]
  generalize components dirSep rest = elements at bytes nonempty ⊢
  have ends : ∀ special : List UInt8, (∀ c ∈ special, dirSep c = false) →
      (elements.getLastD [] = special ↔ 47 :: special <:+ rooted 47 elements) := by
    intro special apart
    constructor
    · intro last
      obtain ⟨front, element, rfl⟩ := List.eq_nil_or_concat elements |>.resolve_left nonempty
      rw [List.concat_eq_append, List.getLastD_concat] at last
      rw [List.concat_eq_append, rooted_append, last]
      exact ⟨rooted 47 front, by simp [rooted]⟩
    · exact getLastD_of_suffix rfl bytes apart
  rw [leadsToDirectory, Bool.or_eq_true, Bool.or_eq_true, beq_iff_eq, beq_iff_eq, beq_iff_eq, or_assoc,
    ends [] (by simp), ends hereElement (by simp [hereElement]), ends upElement (by simp [upElement])]
  rfl

def keptElements (name : List UInt8) : List (List UInt8) :=
  (resolve upElement hereElement [] (components dirSep name)).reverse

theorem keptElements_slash (rest : List UInt8) :
    keptElements (47 :: rest) = (resolve upElement hereElement [] (components dirSep rest)).reverse := by
  have split : components dirSep (47 :: rest) = [] :: components dirSep rest :=
    components_append_cons dirSep [] rest rfl
  rw [keptElements, split]
  rfl

theorem keptElements_regular (name : List UInt8) :
    ∀ element ∈ keptElements name, Regular upElement hereElement element := by
  intro element member
  exact resolve_regular upElement hereElement (by simp) _ element (List.mem_reverse.mp member)

theorem keptElements_plain (name : List UInt8) : ∀ element ∈ keptElements name, ∀ c ∈ element, dirSep c = false := by
  intro element member
  have among := (mem_resolve upElement hereElement (List.mem_reverse.mp member)).resolve_left List.not_mem_nil
  exact components_plain dirSep name element among

def cleanedName (name : List UInt8) : List UInt8 :=
  rooted 47 (keptElements name) ++ directoryMark (components dirSep name)

theorem cleanupName_eq {rest : List UInt8} (noNul : 0 ∉ rest) :
    cleanupName (47 :: rest) = some (cleanedName (47 :: rest)) := by
  have whole := rooted_components dirSep dirSep_iff rest
  have bytes : ∀ element ∈ components dirSep rest, ∀ c ∈ element, c ≠ 47 := by
    rintro element member c found rfl
    exact absurd (components_plain dirSep rest element member 47 found) (by decide)
  have copy : Copy (47 :: rest) ((47 :: rest) ++ [0]) (written []) (rooted 47 (components dirSep rest)) 0 := by
    rw [whole]
    refine ⟨⟨[], rfl⟩, by simp, rfl, Nat.zero_le _, ?_⟩
    simpa [written, rooted] using noNul
  obtain ⟨final, ended, text⟩ := cleanupLoop_elements (components_ne_nil dirSep rest) bytes (by simp) (by simp) copy
    (show _ < (47 :: rest).length + 1 by rw [whole]; exact Nat.lt_succ_self _)
  have mark : directoryMark (components dirSep (47 :: rest)) = directoryMark (components dirSep rest) := by
    have split : components dirSep (47 :: rest) = [] :: components dirSep rest :=
      components_append_cons dirSep [] rest rfl
    rw [split, directoryMark, directoryMark, leadsToDirectory, leadsToDirectory]
    cases parts : components dirSep rest with
    | nil => exact absurd parts (components_ne_nil dirSep rest)
    | cons element elements => rfl
  have start : cleanupLoop (47 :: rest) ((47 :: rest).length + 1) (47 :: rest ++ [0]) 0 0 = some final := ended
  rw [cleanupName, start, Option.map_some, text, cleanedName, keptElements_slash, mark]

theorem keptElements_file {rest : List UInt8} (file : leadsToDirectory (components dirSep rest) = false) :
    ∃ front last, keptElements (47 :: rest) = front ++ [last] := by
  obtain ⟨front, last, split⟩ :=
    List.eq_nil_or_concat (components dirSep rest) |>.resolve_left (components_ne_nil dirSep rest)
  rw [List.concat_eq_append] at split
  rw [split, leadsToDirectory, List.getLastD_concat] at file
  simp only [Bool.or_eq_false_iff, beq_eq_false_iff_ne] at file
  refine ⟨(resolve upElement hereElement [] front).reverse, last, ?_⟩
  rw [keptElements_slash, split, resolve_append, ← List.reverse_cons]
  congr 1
  rcases resolve_of_kind (resolve upElement hereElement [] front) last with
    ⟨same, _⟩ | ⟨same, _⟩ | ⟨same, _⟩ | ⟨_, added⟩
  · exact absurd same file.1.1
  · exact absurd same file.1.2
  · exact absurd same file.2
  · exact added

theorem components_cleanedName (name : List UInt8) :
    components dirSep (cleanedName name) =
      [] :: (keptElements name ++ if leadsToDirectory (components dirSep name) then [[]] else []) := by
  have plain := keptElements_plain name
  rw [cleanedName, directoryMark]
  split
  · have mark : rooted 47 (keptElements name) ++ [47] = [] ++ rooted 47 (keptElements name ++ [[]]) := by
      simp [rooted]
    rw [mark]
    apply components_rooted dirSep rfl _ [] (by simp)
    intro element member
    rcases List.mem_append.mp member with kept | empty
    · exact plain element kept
    · simp [List.mem_singleton.mp empty]
  · rw [List.append_nil, List.append_nil]
    exact components_rooted dirSep rfl plain [] (by simp)

theorem leadsToDirectory_cons (elements : List (List UInt8)) (nonempty : elements ≠ []) :
    leadsToDirectory ([] :: elements) = leadsToDirectory elements := by
  cases elements with
  | nil => exact absurd rfl nonempty
  | cons element elements => rfl

theorem leadsToDirectory_concat_regular {front : List (List UInt8)} {last : List UInt8}
    (regular : Regular upElement hereElement last) : leadsToDirectory (front ++ [last]) = false := by
  rw [leadsToDirectory, List.getLastD_concat]
  simp [regular.1, regular.2.1, regular.2.2]

theorem leadsToDirectory_cleanedName (rest : List UInt8) :
    leadsToDirectory (components dirSep (cleanedName (47 :: rest))) =
      leadsToDirectory (components dirSep (47 :: rest)) := by
  have split : components dirSep (47 :: rest) = [] :: components dirSep rest :=
    components_append_cons dirSep [] rest rfl
  rw [components_cleanedName]
  cases leads : leadsToDirectory (components dirSep (47 :: rest)) with
  | true =>
      rw [if_pos rfl, leadsToDirectory_cons _ (by simp), leadsToDirectory, List.getLastD_concat]
      rfl
  | false =>
      rw [split, leadsToDirectory_cons _ (components_ne_nil dirSep rest)] at leads
      obtain ⟨front, last, file⟩ := keptElements_file leads
      have regular := keptElements_regular (47 :: rest) last (by rw [file]; simp)
      rw [file, if_neg Bool.false_ne_true, List.append_nil, leadsToDirectory_cons _ (by simp)]
      exact leadsToDirectory_concat_regular regular

theorem keptElements_cleanedName (name : List UInt8) : keptElements (cleanedName name) = keptElements name := by
  have regular := keptElements_regular name
  have start : ∀ elements, resolve upElement hereElement [] ([] :: elements) =
      resolve upElement hereElement [] elements := fun _ => rfl
  rw [keptElements, components_cleanedName, start, resolve_append, resolve_of_regular _ _ regular,
    List.append_nil]
  split
  · rw [show resolve upElement hereElement (keptElements name).reverse [[]] = (keptElements name).reverse from rfl,
      List.reverse_reverse]
  · rw [resolve, List.reverse_reverse]

theorem cleanedName_cleanedName (rest : List UInt8) :
    cleanedName (cleanedName (47 :: rest)) = cleanedName (47 :: rest) := by
  rw [cleanedName, keptElements_cleanedName, directoryMark, leadsToDirectory_cleanedName]
  rfl

theorem cleanedName_slash (rest : List UInt8) : ∃ more, cleanedName (47 :: rest) = 47 :: more := by
  have split : components dirSep (47 :: rest) = [] :: components dirSep rest :=
    components_append_cons dirSep [] rest rfl
  cases kept : keptElements (47 :: rest) with
  | cons element elements => exact ⟨element ++ rooted 47 elements ++ _, by rw [cleanedName, kept]; rfl⟩
  | nil =>
      cases leads : leadsToDirectory (components dirSep rest) with
      | true =>
          refine ⟨[], ?_⟩
          rw [cleanedName, kept, directoryMark, split, leadsToDirectory_cons _ (components_ne_nil dirSep rest),
            leads]
          rfl
      | false =>
          obtain ⟨front, last, file⟩ := keptElements_file leads
          simp [kept] at file

theorem slash_suffix_cleanedName (rest : List UInt8) :
    [47] <:+ cleanedName (47 :: rest) ↔ leadsToDirectory (components dirSep rest) = true := by
  have split : components dirSep (47 :: rest) = [] :: components dirSep rest :=
    components_append_cons dirSep [] rest rfl
  rw [cleanedName, directoryMark, split, leadsToDirectory_cons _ (components_ne_nil dirSep rest)]
  cases leads : leadsToDirectory (components dirSep rest) with
  | true => simp
  | false =>
      obtain ⟨front, last, file⟩ := keptElements_file leads
      have regular := keptElements_regular (47 :: rest) last (by rw [file]; simp)
      refine iff_of_false (fun found => ?_) Bool.false_ne_true
      rw [if_neg Bool.false_ne_true, List.append_nil] at found
      have last := @getLastD_of_suffix _ _ _ _ [] rfl (keptElements_plain _) (by simp) found
      rw [file, List.getLastD_concat] at last
      exact regular.2.1 last

theorem upElement_not_mem_cleanedName (name : List UInt8) :
    upElement ∉ components dirSep (cleanedName name) := by
  rw [components_cleanedName, List.mem_cons, List.mem_append]
  rintro (empty | kept | mark)
  · exact absurd empty (by decide)
  · exact (keptElements_regular name _ kept).1 rfl
  · split at mark
    · exact absurd (List.mem_singleton.mp mark) (by decide)
    · exact absurd mark List.not_mem_nil

theorem mem_cleanedName {name : List UInt8} {c : UInt8} (member : c ∈ cleanedName name) : c = 47 ∨ c ∈ name := by
  rw [cleanedName, List.mem_append] at member
  rcases member with kept | mark
  · obtain ⟨element, among, found⟩ := List.mem_flatMap.mp kept
    rcases List.mem_cons.mp found with slash | found
    · exact Or.inl slash
    · have part := (mem_resolve upElement hereElement (List.mem_reverse.mp among)).resolve_left List.not_mem_nil
      exact Or.inr (mem_of_mem_components dirSep part found)
  · rw [directoryMark] at mark
    split at mark
    · exact Or.inl (List.mem_singleton.mp mark)
    · exact absurd mark List.not_mem_nil

/-- `cleanupName` of an absolute name. -/
theorem cleanupName_absolute {rest : List UInt8} (noNul : 0 ∉ rest) :
    cleanupName (47 :: rest) = some (cleanedName (47 :: rest)) ∧
      ([47] <:+ cleanedName (47 :: rest) ↔
        [47] <:+ 47 :: rest ∨ [47, 46] <:+ 47 :: rest ∨ [47, 46, 46] <:+ 47 :: rest) ∧
      upElement ∉ components dirSep (cleanedName (47 :: rest)) ∧
      cleanupName (cleanedName (47 :: rest)) = some (cleanedName (47 :: rest)) := by
  refine ⟨cleanupName_eq noNul, ?_, upElement_not_mem_cleanedName _, ?_⟩
  · rw [slash_suffix_cleanedName, leadsToDirectory_iff]
  · obtain ⟨more, whole⟩ := cleanedName_slash rest
    have clean : 0 ∉ more := by
      intro found
      rcases mem_cleanedName (whole ▸ List.mem_cons_of_mem 47 found) with slash | member
      · exact absurd slash (by decide)
      · rcases List.mem_cons.mp member with slash | member
        · exact absurd slash (by decide)
        · exact noNul member
    rw [whole, cleanupName_eq clean, ← whole, cleanedName_cleanedName]

/-- "/a//b/../c/." -/
theorem cleanupName_absolute_example :
    cleanupName [47, 97, 47, 47, 98, 47, 46, 46, 47, 99, 47, 46] = some [47, 97, 47, 99, 47] := by
  have cleaned := (@cleanupName_absolute [97, 47, 47, 98, 47, 46, 46, 47, 99, 47, 46] (by decide)).1
  rw [cleaned]
  decide

end KcnTools.W3m
