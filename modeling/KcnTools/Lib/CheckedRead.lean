import Mathlib.Data.List.TakeWhile

/-!
Parsers that read a list through positions. A position behind the last element is outside, and a
parser that reads there goes beyond the list.
-/

namespace KcnTools.CheckedRead

inductive Read (α : Type) where
  | beyond
  | fails
  | value (a : α)

namespace Read

variable {α β : Type}

def bind (r : Read α) (k : α → Read β) : Read β :=
  match r with
  | beyond => beyond
  | fails => fails
  | value a => k a

instance : Monad Read where
  pure := value
  bind := bind

@[simp] theorem value_bind (a : α) (k : α → Read β) : (value a >>= k) = k a := rfl

@[simp] theorem beyond_bind (k : α → Read β) : ((beyond : Read α) >>= k) = beyond := rfl

@[simp] theorem fails_bind (k : α → Read β) : ((fails : Read α) >>= k) = fails := rfl

def orElse (r : Read α) (default : α) : Read α :=
  match r with
  | fails => value default
  | other => other

/-- Nothing is read outside, a result has a property, and there is a condition on failures. -/
def Meets (r : Read α) (failure : Prop) (P : α → Prop) : Prop :=
  match r with
  | beyond => False
  | fails => failure
  | value a => P a

abbrev Safe (r : Read α) (P : α → Prop) : Prop := r.Meets True P

variable {F : Prop}

theorem Meets.bind {r : Read α} {k : α → Read β} {P : α → Prop} {Q : β → Prop} (first : r.Meets F P)
    (next : ∀ a, P a → (k a).Meets F Q) : (r >>= k).Meets F Q := by
  cases r with
  | beyond => exact first
  | fails => exact first
  | value a => exact next a first

theorem Meets.imp {r : Read α} {P Q : α → Prop} (meets : r.Meets F P) (implied : ∀ a, P a → Q a) : r.Meets F Q := by
  cases r with
  | beyond => exact meets
  | fails => exact meets
  | value a => exact implied a meets

theorem Safe.orElse {r : Read α} {default : α} {P : α → Prop} (safe : r.Safe P) (holds : P default) :
    (r.orElse default).Meets F P := by
  cases r with
  | beyond => exact safe
  | fails => exact holds
  | value a => exact safe

theorem Meets.ite {c : Prop} [Decidable c] {r s : Read α} {P : α → Prop} (yes : c → r.Meets F P)
    (no : ¬ c → s.Meets F P) : (if c then r else s).Meets F P := by
  split
  next holds => exact yes holds
  next fails => exact no fails

theorem Meets.value {r : Read α} {P : α → Prop} (meets : r.Meets False P) : ∃ a, r = value a ∧ P a := by
  cases r with
  | beyond => exact meets.elim
  | fails => exact meets.elim
  | value a => exact ⟨a, rfl, meets⟩

/-- A parser without positions does the same as one that reads, unless that one goes beyond the list. -/
def Agrees (same : α → β → Prop) (r : Read α) (p : Option β) : Prop :=
  match r with
  | beyond => True
  | fails => p = none
  | value a => ∃ b, p = some b ∧ same a b

section Agreement

variable {γ δ : Type} {same : α → β → Prop} {other : γ → δ → Prop}

theorem Agrees.bind {r : Read α} {p : Option β} {k : α → Read γ} {l : β → Option δ} (agrees : r.Agrees same p)
    (next : ∀ a b, same a b → (k a).Agrees other (l b)) : (r >>= k).Agrees other (p >>= l) := by
  cases r with
  | beyond => trivial
  | fails =>
      obtain rfl : p = none := agrees
      exact rfl
  | value a =>
      obtain ⟨b, rfl, here⟩ := agrees
      exact next a b here

theorem Agrees.bindSome {r : Read α} {b : β} {k : α → Read γ} {q : Option δ} (agrees : r.Agrees same (some b))
    (next : ∀ a, same a b → (k a).Agrees other q) : (r >>= k).Agrees other q := by
  cases r with
  | beyond => trivial
  | fails => exact absurd agrees (Option.some_ne_none b)
  | value a =>
      obtain ⟨found, same, here⟩ := agrees
      obtain rfl := Option.some.inj same
      exact next a here

/-- What a parser finds without positions, one that stays in the list finds as well. -/
theorem Agrees.found {r : Read α} {b : β} {P : α → Prop} (agrees : r.Agrees same (some b)) (safe : r.Safe P) :
    ∃ a, r = Read.value a ∧ P a ∧ same a b := by
  cases r with
  | beyond => exact safe.elim
  | fails => exact absurd agrees (Option.some_ne_none b)
  | value a =>
      obtain ⟨found, shape, here⟩ := agrees
      obtain rfl := Option.some.inj shape
      exact ⟨a, rfl, safe, here⟩

theorem Agrees.ite {c : Prop} [Decidable c] {r s : Read α} {p q : Option β} (yes : c → r.Agrees same p)
    (no : ¬ c → s.Agrees same q) : (if c then r else s).Agrees same (if c then p else q) := by
  split
  next holds => exact yes holds
  next fails => exact no fails

end Agreement

end Read

open Read

section Elements

variable {β : Type} (list : List β)

def element (i : Nat) : Read β :=
  match list[i]? with
  | some c => value c
  | none => beyond

def skipWhile (p : β → Bool) : Nat → Nat → Read Nat
  | 0, pos => value pos
  | count + 1, pos => do
      let c ← element list pos
      if p c then skipWhile p count (pos + 1) else value pos

def memchr [DecidableEq β] (c : β) : Nat → Nat → Read (Option Nat)
  | 0, _ => value none
  | count + 1, pos => do
      let other ← element list pos
      if other = c then value (some pos) else memchr c count (pos + 1)

def elements (count pos : Nat) : Read (List β) :=
  if pos + count ≤ list.length then value ((list.drop pos).take count) else beyond

variable {list} {F : Prop}

theorem element_safe {i : Nat} (inside : i < list.length) : (element list i).Meets F fun c => list[i]? = some c := by
  rw [element, List.getElem?_eq_getElem inside]
  exact rfl

theorem element_drop {i : Nat} {c : β} {rest : List β} (text : list.drop i = c :: rest) : element list i = value c := by
  have here : list[i]? = some c := by rw [← List.head?_drop, text, List.head?_cons]
  rw [element, here]

theorem drop_succ {i : Nat} {c : β} {rest : List β} (text : list.drop i = c :: rest) : list.drop (i + 1) = rest := by
  rw [← List.drop_drop, text, List.drop_succ_cons, List.drop_zero]

theorem elements_safe {count pos : Nat} (inside : pos + count ≤ list.length) :
    (elements list count pos).Meets F fun _ => True := by
  rw [elements, if_pos inside]
  trivial

theorem skipWhile_safe (p : β → Bool) {count pos : Nat} (inside : pos + count ≤ list.length) :
    (skipWhile list p count pos).Meets F fun next => pos ≤ next ∧ next ≤ pos + count := by
  induction count generalizing pos with
  | zero => exact ⟨Nat.le_refl pos, Nat.le_refl pos⟩
  | succ count ih =>
      rw [skipWhile]
      refine (element_safe (by omega)).bind fun c _ => Meets.ite (fun _ => ?_) fun _ => ?_
      · exact (ih (by omega)).imp fun next bounds => by omega
      · exact ⟨Nat.le_refl pos, by omega⟩

theorem memchr_safe [DecidableEq β] (c : β) {count pos : Nat} (inside : pos + count ≤ list.length) :
    (memchr list c count pos).Meets F fun found => ∀ i ∈ found, pos ≤ i ∧ i < pos + count := by
  induction count generalizing pos with
  | zero => exact nofun
  | succ count ih =>
      rw [memchr]
      refine (element_safe (by omega)).bind fun other _ => Meets.ite (fun _ => ?_) fun _ => ?_
      · rintro i ⟨⟩
        exact ⟨Nat.le_refl pos, by omega⟩
      · refine (ih (by omega)).imp fun found bounds i member => ?_
        have := bounds i member
        omega

/-! The same in terms of the elements from a position on. -/

theorem skipWhile_drop (p : β → Bool) {pos : Nat} (inside : pos ≤ list.length) :
    ∃ next, skipWhile list p (list.length - pos) pos = value next ∧ pos ≤ next ∧ next ≤ list.length ∧
      list.drop next = (list.drop pos).dropWhile p ∧ next = pos + ((list.drop pos).takeWhile p).length := by
  induction text : list.drop pos generalizing pos with
  | nil =>
      have behind := List.drop_eq_nil_iff.mp text
      rw [Nat.sub_eq_zero_of_le behind]
      exact ⟨pos, rfl, Nat.le_refl pos, inside, text, rfl⟩
  | cons c rest ih =>
      have length := congrArg List.length text
      rw [List.length_drop, List.length_cons] at length
      rw [show list.length - pos = list.length - (pos + 1) + 1 by omega, skipWhile, element_drop text, value_bind]
      by_cases skipped : p c = true
      · obtain ⟨next, same, later, within, left, count⟩ := ih (by omega) (drop_succ text)
        rw [if_pos skipped, List.dropWhile_cons_of_pos skipped, List.takeWhile_cons_of_pos skipped, List.length_cons]
        exact ⟨next, same, by omega, within, left, by omega⟩
      · rw [if_neg skipped, List.dropWhile_cons_of_neg skipped, List.takeWhile_cons_of_neg skipped]
        exact ⟨pos, rfl, Nat.le_refl pos, inside, text, rfl⟩

theorem skipWhile_take (p : β → Bool) {count pos : Nat} (inside : pos + count ≤ list.length) :
    skipWhile list p count pos = value (pos + (((list.drop pos).take count).takeWhile p).length) := by
  induction count generalizing pos with
  | zero => rw [skipWhile, List.take_zero, List.takeWhile_nil, List.length_nil, Nat.add_zero]
  | succ count ih =>
      obtain ⟨c, rest, text⟩ := List.exists_cons_of_ne_nil
        (List.drop_eq_nil_iff.not.mpr (show ¬ list.length ≤ pos by omega))
      rw [skipWhile, element_drop text, value_bind, text, List.take_succ_cons]
      by_cases skipped : p c = true
      · rw [if_pos skipped, ih (by omega), drop_succ text, List.takeWhile_cons_of_pos skipped, List.length_cons,
          Nat.add_assoc, Nat.add_comm 1]
      · rw [if_neg skipped, List.takeWhile_cons_of_neg skipped, List.length_nil, Nat.add_zero]

theorem memchr_found [DecidableEq β] {c : β} {pos count : Nat} {before after : List β}
    (text : list.drop pos = before ++ c :: after) (first : c ∉ before) (near : before.length < count) :
    memchr list c count pos = value (some (pos + before.length)) := by
  induction before generalizing pos count with
  | nil =>
      cases count with
      | zero => exact absurd near (Nat.not_lt_zero _)
      | succ count =>
          rw [memchr, element_drop text, value_bind, if_pos rfl]
          rfl
  | cons other before ih =>
      cases count with
      | zero => exact absurd near (Nat.not_lt_zero _)
      | succ count =>
          have differ : other ≠ c := fun same => first (same ▸ List.mem_cons_self)
          rw [memchr, element_drop text, value_bind, if_neg differ,
            ih (drop_succ text) (fun member => first (.tail _ member)) (Nat.lt_of_succ_lt_succ near),
            List.length_cons, Nat.add_assoc, Nat.add_comm 1]

theorem memchr_missing [DecidableEq β] {c : β} {count pos : Nat} (inside : pos + count ≤ list.length)
    (missing : c ∉ list) : memchr list c count pos = value none := by
  induction count generalizing pos with
  | zero => rfl
  | succ count ih =>
      have here : pos < list.length := by omega
      have differ : list[pos] ≠ c := fun same => missing (same ▸ List.getElem_mem here)
      rw [memchr, element, List.getElem?_eq_getElem here]
      show (if list[pos] = c then value (some pos) else memchr list c count (pos + 1)) = value none
      rw [if_neg differ]
      exact ih (by omega)

/-- Without the element the search goes on to the element behind the last one. -/
theorem memchr_beyond [DecidableEq β] {c : β} {pos count : Nat} (missing : c ∉ list.drop pos)
    (far : (list.drop pos).length < count) : memchr list c count pos = beyond := by
  induction text : list.drop pos generalizing pos count with
  | nil =>
      cases count with
      | zero => exact absurd far (Nat.not_lt_zero _)
      | succ count =>
          rw [memchr, element, List.getElem?_eq_none (List.drop_eq_nil_iff.mp text)]
          rfl
  | cons other rest ih =>
      rw [text] at missing far
      cases count with
      | zero => exact absurd far (Nat.not_lt_zero _)
      | succ count =>
          have differ : other ≠ c := fun same => missing (same ▸ List.mem_cons_self)
          rw [memchr, element_drop text, value_bind, if_neg differ]
          refine ih ?_ ?_ (drop_succ text)
          · rw [drop_succ text]
            exact fun member => missing (.tail _ member)
          · rw [drop_succ text]
            exact Nat.lt_of_succ_lt_succ far

end Elements

end KcnTools.CheckedRead
