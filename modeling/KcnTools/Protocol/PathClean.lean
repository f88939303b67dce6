import Mathlib.Data.List.Chain
import KcnTools.Lib.Path
import KcnTools.Protocol.PathNormal

/-!
The elements of a normalized path: up to the first byte that `normalize_uri` takes for
the end of the path, no element leads up and no two separators meet.
-/

namespace KcnTools.Protocols

open KcnTools.Path

def upElement : List UInt8 := [46, 46]

def hereElement : List UInt8 := [46]

@[simp] theorem dirSep_dot : dirSep 46 = false := rfl

@[simp] theorem dirSep_nul : dirSep 0 = false := rfl

theorem not_endOfDir_of_dirSep {c : UInt8} (separates : dirSep c = true) : endOfDir c = false := by
  simp only [dirSep, beq_iff_eq] at separates
  subst separates
  decide

def unnormalized (path : List UInt8) : List UInt8 := path.dropWhile fun c => !endOfDir c

theorem dropElement_cases (out : List UInt8) :
    dropElement dirSep out = [] ∨ ∃ element sep, dirSep sep = true ∧
      out = element ++ sep :: dropElement dirSep out := by
  induction out with
  | nil => exact Or.inl rfl
  | cons c out ih =>
      rw [dropElement]
      split
      · rename_i separates
        exact Or.inr ⟨[], c, separates, rfl⟩
      · rcases ih with nothing | ⟨element, sep, separates, split⟩
        · exact Or.inl nothing
        · refine Or.inr ⟨c :: element, sep, separates, ?_⟩
          rw [List.cons_append, ← split]

def Rooted (out : List UInt8) : Prop :=
  ∃ name, out = name ++ [47] ∨ out = name ++ [47, 46]

/-- The invariant of the loop on the bytes written and those still to be read. -/
structure Clean (out src : List UInt8) : Prop where
  noUp : upElement ∉ components dirSep (out.reverse ++ src.takeWhile fun c => !dirSep c)
  apart : out.IsChain fun later earlier => dirSep later = true → dirSep earlier = false
  meets : ∀ c ∈ src.head?, dirSep c = true → ∀ d ∈ out.head?, dirSep d = false
  rooted : Rooted out ∨ (out = [] ∨ out = [46]) ∧ ∃ c ∈ src.head?, dirSep c = true

theorem Clean.start (src : List UInt8) : Clean [46] (47 :: src) := by
  refine ⟨?_, List.isChain_singleton _, ?_, ?_⟩
  · simp [components, dirSep, upElement, List.splitOnP_cons_eq_if_modifyHead]
  · simp
  · exact Or.inr ⟨Or.inr rfl, 47, by simp, rfl⟩

theorem Clean.skip {out src : List UInt8} {c d : UInt8} (clean : Clean out (c :: src))
    (separates : dirSep c = true) (next : dirSep d = true) (src' : List UInt8) : Clean out (d :: src') := by
  have noUp := clean.noUp
  refine ⟨?_, clean.apart, ?_, ?_⟩
  · simp only [List.takeWhile_cons, separates, next, Bool.not_true, Bool.false_eq_true,
      ↓reduceIte] at noUp ⊢
    exact noUp
  · intro _ _ _
    exact clean.meets c (by simp) separates
  · rcases clean.rooted with rooted | ⟨short, _⟩
    · exact Or.inl rooted
    · exact Or.inr ⟨short, d, by simp, next⟩

theorem Clean.copy {out src : List UInt8} {c : UInt8} (clean : Clean out (c :: src))
    (element : dirSep c = true → src.takeWhile (fun c => !dirSep c) ≠ upElement)
    (single : dirSep c = true → ∀ d ∈ src.head?, dirSep d = false) : Clean (c :: out) src := by
  have noUp := clean.noUp
  refine ⟨?_, ?_, ?_, ?_⟩
  · cases separates : dirSep c with
    | false =>
        simp only [List.takeWhile_cons, separates, Bool.not_false, ↓reduceIte] at noUp
        rwa [List.reverse_cons, List.append_assoc, List.cons_append, List.nil_append]
    | true =>
        simp only [List.takeWhile_cons, separates, Bool.not_true, Bool.false_eq_true, ↓reduceIte,
          List.append_nil] at noUp
        rw [List.reverse_cons, List.append_assoc, List.cons_append, List.nil_append,
          components_append_cons dirSep _ _ separates, List.mem_append, not_or]
        refine ⟨noUp, ?_⟩
        rw [components_of_all dirSep (fun d member => by simpa using List.mem_takeWhile_imp member),
          List.mem_singleton]
        exact (element separates).symm
  · refine List.isChain_cons.mpr ⟨?_, clean.apart⟩
    intro d member separates
    exact clean.meets c (by simp) separates d member
  · rintro d member separates e ⟨⟩
    cases same : dirSep c with
    | false => rfl
    | true =>
        rw [single same d member] at separates
        exact absurd separates (by decide)
  · refine Or.inl ?_
    rcases clean.rooted with ⟨name, root⟩ | ⟨short, d, head, separates⟩
    · refine ⟨c :: name, root.imp ?_ ?_⟩
      · exact fun same => by rw [same, List.cons_append]
      · exact fun same => by rw [same, List.cons_append]
    · obtain rfl : c = d := by simpa using head
      simp only [dirSep, beq_iff_eq] at separates
      subst separates
      rcases short with rfl | rfl
      · exact ⟨[], Or.inl rfl⟩
      · exact ⟨[], Or.inr rfl⟩

theorem dropElement_append (first : List UInt8) (last : List UInt8) :
    (∃ name, dropElement dirSep (first ++ last) = name ++ last) ∨
      dropElement dirSep (first ++ last) = dropElement dirSep last := by
  induction first with
  | nil => exact Or.inr rfl
  | cons c first ih =>
      rw [List.cons_append, dropElement]
      split
      · exact Or.inl ⟨first, rfl⟩
      · exact ih

theorem Clean.backOut {out src : List UInt8} {c : UInt8} (clean : Clean out (c :: src))
    (separates : dirSep c = true) {d : UInt8} (next : dirSep d = true) (src' : List UInt8) :
    Clean (dropElement dirSep out.tail) (d :: src') := by
  have suffix := (dropElement_suffix dirSep out.tail).trans (List.tail_suffix out)
  have noUp := clean.noUp
  simp only [List.takeWhile_cons, separates, Bool.not_true, Bool.false_eq_true, ↓reduceIte,
    List.append_nil] at noUp
  refine ⟨?_, clean.apart.suffix suffix, ?_, ?_⟩
  · simp only [List.takeWhile_cons, next, Bool.not_true, Bool.false_eq_true, ↓reduceIte,
      List.append_nil]
    rcases dropElement_cases out.tail with nothing | ⟨element, sep, ends, split⟩
    · rw [nothing]
      simp [components, upElement]
    · have whole : ∃ last, out = last ++ sep :: dropElement dirSep out.tail := by
        cases out with
        | nil => simp at split
        | cons e out => exact ⟨e :: element, congrArg (e :: ·) split⟩
      obtain ⟨last, whole⟩ := whole
      rw [whole, List.reverse_append, List.reverse_cons, List.append_assoc, List.cons_append,
        components_append_cons dirSep _ _ ends, List.mem_append, not_or] at noUp
      exact noUp.1
  · rintro e ⟨⟩ _ f member
    rcases dropElement_cases out.tail with nothing | ⟨element, sep, ends, split⟩
    · rw [nothing] at member
      simp at member
    · have chain := clean.apart.tail
      rw [split] at chain
      obtain ⟨head, _⟩ := List.isChain_cons.mp chain.right_of_append
      exact head f member ends
  · have shortened : ∀ last, (last = [47] ∨ last = [47, 46]) → (∃ name, out = name ++ last) →
        (∃ name, dropElement dirSep out.tail = name ++ last) ∨
          dropElement dirSep out.tail = last.tail := by
      rintro last root ⟨name, rfl⟩
      cases name with
      | nil =>
          have head := clean.meets c (by simp) separates 47 (by
            rcases root with rfl | rfl <;> rfl)
          exact absurd head (by decide)
      | cons e name =>
          refine (dropElement_append name last).imp id fun same => ?_
          rw [List.cons_append, List.tail_cons, same]
          rcases root with rfl | rfl <;> rfl
    rcases clean.rooted with ⟨name, root | root⟩ | ⟨short, _⟩
    · rcases shortened [47] (Or.inl rfl) ⟨name, root⟩ with ⟨shorter, same⟩ | same
      · exact Or.inl ⟨shorter, Or.inl same⟩
      · exact Or.inr ⟨Or.inl same, d, by simp, next⟩
    · rcases shortened [47, 46] (Or.inr rfl) ⟨name, root⟩ with ⟨shorter, same⟩ | same
      · exact Or.inl ⟨shorter, Or.inr same⟩
      · exact Or.inr ⟨Or.inr same, d, by simp, next⟩
    · refine Or.inr ⟨Or.inl ?_, d, by simp, next⟩
      rcases short with rfl | rfl <;> rfl

theorem Clean.end {out src : List UInt8} {c : UInt8} (clean : Clean out (c :: src))
    (separates : dirSep c = true) : Clean (c :: out) [] :=
  (clean.skip separates separates []).copy (fun _ => by simp [upElement])
    (fun _ => by simp)

theorem exists_cons_of_byteAt {rest : List UInt8} {d : UInt8} (found : byteAt rest 0 = d)
    (visible : d ≠ 0) : ∃ more, rest = d :: more := by
  cases rest with
  | nil => exact absurd found.symm visible
  | cons e more => exact ⟨more, congrArg (· :: more) found⟩

theorem exists_cons_of_dirSep {rest : List UInt8} (found : dirSep (byteAt rest 0) = true) :
    ∃ d more, rest = d :: more ∧ dirSep d = true := by
  cases rest with
  | nil => exact absurd found (by decide)
  | cons d more => exact ⟨d, more, rfl, found⟩

theorem eq_nil_of_byteAt {rest : List UInt8} (noNul : 0 ∉ rest) (found : byteAt rest 0 = 0) :
    rest = [] := by
  cases rest with
  | nil => rfl
  | cons d more =>
      obtain rfl : d = 0 := found
      exact absurd (List.mem_cons_self ..) noNul

theorem unnormalized_cons {c : UInt8} (inside : endOfDir c = false) (rest : List UInt8) :
    unnormalized (c :: rest) = unnormalized rest := by
  simp [unnormalized, inside]

theorem takeWhile_ne_upElement {rest : List UInt8}
    (other : ¬(byteAt rest 0 = 46 ∧ byteAt rest 1 = 46 ∧
      (dirSep (byteAt rest 2) = true ∨ byteAt rest 2 = 0))) :
    rest.takeWhile (fun c => !dirSep c) ≠ upElement := by
  intro same
  apply other
  rcases rest with _ | ⟨a, _ | ⟨b, rest⟩⟩
  · simp [upElement] at same
  · simp only [List.takeWhile_cons, List.takeWhile_nil] at same
    split at same <;> simp [upElement] at same
  · simp only [List.takeWhile_cons] at same
    split at same
    · split at same
      · simp only [upElement, List.cons.injEq] at same
        obtain ⟨rfl, rfl, ends⟩ := same
        refine ⟨rfl, rfl, ?_⟩
        cases rest with
        | nil => exact Or.inr rfl
        | cons d more =>
            simp only [List.takeWhile_cons] at ends
            split at ends
            · simp at ends
            · rename_i separates
              simp only [Bool.not_eq_true', Bool.not_eq_false] at separates
              exact Or.inl separates
      · simp [upElement] at same
    · simp [upElement] at same

/-- The normal form of a clean path is clean up to what is copied unnormalized. -/
theorem normalPath_clean {out src : List UInt8} (noNul : 0 ∉ src) (clean : Clean out src) :
    ∃ before, normalPath dirSep out src = before.reverse ++ unnormalized src ∧
      Clean before (unnormalized src) := by
  have dot : endOfDir 46 = false := by decide
  fun_induction normalPath dirSep out src with
  | case1 out => exact ⟨out, by simp [unnormalized], clean⟩
  | case2 out c rest step =>
      have spec := pathStep_cases dirSep_dot (byteAt (c :: rest))
      rw [step] at spec
      have ends : endOfDir c = true := spec
      have whole : unnormalized (c :: rest) = c :: rest := by simp [unnormalized, ends]
      exact ⟨out, by rw [whole], by rwa [whole]⟩
  | case3 out c rest step =>
      have spec := pathStep_cases dirSep_dot (byteAt (c :: rest))
      rw [step] at spec
      obtain ⟨(separates : dirSep c = true), first, last⟩ := spec
      obtain ⟨more, rfl⟩ := exists_cons_of_byteAt first (by decide)
      obtain rfl := eq_nil_of_byteAt (fun member => noNul (by simp [member])) last
      have nothing : unnormalized [c, 46] = [] := by
        rw [unnormalized_cons (not_endOfDir_of_dirSep separates), unnormalized_cons dot]
        rfl
      rw [nothing]
      exact ⟨c :: out, by simp, clean.end separates⟩
  | case4 out c rest step ih =>
      have spec := pathStep_cases dirSep_dot (byteAt (c :: rest))
      rw [step] at spec
      obtain ⟨(separates : dirSep c = true), first, next⟩ := spec
      obtain ⟨more, rfl⟩ := exists_cons_of_byteAt first (by decide)
      obtain ⟨d, src, rfl, next⟩ := exists_cons_of_dirSep next
      rw [unnormalized_cons (not_endOfDir_of_dirSep separates), unnormalized_cons dot]
      exact ih (fun member => noNul (by simp at member ⊢; simp [member]))
        (clean.skip separates next src)
  | case5 out c rest step =>
      have spec := pathStep_cases dirSep_dot (byteAt (c :: rest))
      rw [step] at spec
      obtain ⟨(separates : dirSep c = true), first, second, last⟩ := spec
      obtain ⟨more, rfl⟩ := exists_cons_of_byteAt first (by decide)
      obtain ⟨more, rfl⟩ := exists_cons_of_byteAt second (by decide)
      obtain rfl := eq_nil_of_byteAt (fun member => noNul (by simp [member])) last
      have nothing : unnormalized [c, 46, 46] = [] := by
        rw [unnormalized_cons (not_endOfDir_of_dirSep separates), unnormalized_cons dot,
          unnormalized_cons dot]
        rfl
      rw [nothing]
      exact ⟨c :: dropElement dirSep out.tail, by simp,
        (clean.backOut separates separates []).end separates⟩
  | case6 out c rest step ih =>
      have spec := pathStep_cases dirSep_dot (byteAt (c :: rest))
      rw [step] at spec
      obtain ⟨(separates : dirSep c = true), first, second, next⟩ := spec
      obtain ⟨more, rfl⟩ := exists_cons_of_byteAt first (by decide)
      obtain ⟨more, rfl⟩ := exists_cons_of_byteAt second (by decide)
      obtain ⟨d, src, rfl, next⟩ := exists_cons_of_dirSep next
      rw [unnormalized_cons (not_endOfDir_of_dirSep separates), unnormalized_cons dot,
        unnormalized_cons dot]
      exact ih (fun member => noNul (by simp at member ⊢; simp [member]))
        (clean.backOut separates next src)
  | case7 out c rest step ih =>
      have spec := pathStep_cases dirSep_dot (byteAt (c :: rest))
      rw [step] at spec
      obtain ⟨(separates : dirSep c = true), next⟩ := spec
      obtain ⟨d, src, rfl, next⟩ := exists_cons_of_dirSep next
      rw [unnormalized_cons (not_endOfDir_of_dirSep separates)]
      exact ih (fun member => noNul (by simp [member])) (clean.skip separates next src)
  | case8 out c rest step ih =>
      have spec := pathStep_cases dirSep_dot (byteAt (c :: rest))
      rw [step] at spec
      obtain ⟨(inside : endOfDir c = false), other⟩ := spec
      rw [unnormalized_cons inside]
      refine ih (fun member => noNul (by simp [member])) (clean.copy ?_ ?_)
      · intro separates
        exact takeWhile_ne_upElement (other separates).2
      · intro separates d head
        have single := (other separates).1
        cases rest with
        | nil => simp at head
        | cons e more =>
            obtain rfl : e = d := by simpa using head
            exact single

theorem endOfDir_head_unnormalized {path : List UInt8} {c : UInt8}
    (head : c ∈ (unnormalized path).head?) : endOfDir c = true := by
  have ends := List.head?_dropWhile_not (fun c => !endOfDir c) path
  rw [← unnormalized, Option.mem_def.mp head] at ends
  simpa using ends

/-- The element behind the first separator is not empty, or it is the last one. -/
theorem Clean.head_after {name last src : List UInt8} (clean : Clean (name ++ 47 :: last) src)
    {c : UInt8} (head : c ∈ (name.reverse ++ src).head?) : dirSep c = false := by
  cases separates : dirSep c with
  | false => rfl
  | true =>
      rcases List.eq_nil_or_concat name with rfl | ⟨init, x, rfl⟩
      · exact absurd (clean.meets c head separates 47 rfl) (by decide)
      · obtain rfl : x = c := by simpa using head
        have chain := clean.apart
        rw [List.concat_eq_append, List.append_assoc] at chain
        have meets := (List.isChain_cons_cons.mp chain.right_of_append).1 separates
        exact absurd meets (by decide)

theorem Clean.upElement_iff {out src : List UInt8} (clean : Clean out src) :
    upElement ∈ components dirSep (out.reverse ++ src) ↔
      upElement ∈ (components dirSep src).tail := by
  rw [components_append_tail, List.mem_append]
  exact or_iff_right clean.noUp

end KcnTools.Protocols
