import Mathlib.Data.List.Forall2
import Mathlib.Data.List.GetD
import Mathlib.Data.List.InsertIdx

/-! Lists that are changed at one position, and related element by element. -/

namespace KcnTools.Modify

variable {α : Type} {R : α → α → Prop}

theorem forall₂_self (same : ∀ a, R a a) (l : List α) : List.Forall₂ R l l :=
  List.forall₂_same.mpr fun a _ => same a

theorem forall₂_trans (trans : ∀ {a b c}, R a b → R b c → R a c) {first second third : List α}
    (earlier : List.Forall₂ R first second) (later : List.Forall₂ R second third) :
    List.Forall₂ R first third := by
  induction earlier generalizing third with
  | nil => exact later
  | cons head _ ih =>
      cases later with
      | cons next rest => exact .cons (trans head next) (ih rest)

theorem forall₂_modify (same : ∀ a, R a a) (l : List α) (index : Nat) {f g : α → α}
    (changed : ∀ a, l[index]? = some a → R (f a) (g a)) :
    List.Forall₂ R (l.modify index f) (l.modify index g) := by
  induction l generalizing index with
  | nil => simp
  | cons a l ih =>
      cases index with
      | zero => exact .cons (changed a rfl) (forall₂_self same l)
      | succ index => exact .cons (same a) (ih index changed)

theorem forall₂_modify_self (same : ∀ a, R a a) (l : List α) (index : Nat) {f : α → α}
    (changed : ∀ a, l[index]? = some a → R a (f a)) :
    List.Forall₂ R l (l.modify index f) := by
  have both := forall₂_modify same l index (f := id) (g := f) changed
  rwa [List.modify_id] at both

theorem forall₂_mem_right {first second : List α} (related : List.Forall₂ R first second) {b : α}
    (member : b ∈ second) : ∃ a ∈ first, R a b := by
  induction related with
  | nil => simp at member
  | cons head _ ih =>
      rcases List.mem_cons.mp member with same | later
      · subst same
        exact ⟨_, List.mem_cons_self, head⟩
      · obtain ⟨a, there, relates⟩ := ih later
        exact ⟨a, List.mem_cons_of_mem _ there, relates⟩

theorem map_modify_of_eq {β : Type} (l : List α) (index : Nat) {f : α → α} {view : α → β}
    (same : ∀ a, view (f a) = view a) : (l.modify index f).map view = l.map view := by
  induction l generalizing index with
  | nil => simp
  | cons a l ih =>
      cases index with
      | zero => simp [same]
      | succ index => simp [ih]

theorem map_modify_set {β : Type} (l : List α) (index : Nat) {f : α → α} {view : α → β} {b : β}
    (changed : ∀ a, l[index]? = some a → view (f a) = b) :
    (l.modify index f).map view = (l.map view).set index b := by
  induction l generalizing index with
  | nil => simp
  | cons a l ih =>
      cases index with
      | zero => simp [changed a rfl]
      | succ index =>
          rw [List.modify_succ_cons, List.map_cons, List.map_cons, List.set_cons_succ]
          rw [ih index fun other there => changed other there]

/-- A view in which the change at one position is one of all elements that leaves
the others alone. -/
theorem map_modify_others {β : Type} {l : List α} {index : Nat} {a : α} (here : l[index]? = some a)
    {f : α → α} {view : α → β} {g : β → β} (changed : view (f a) = g (view a))
    (others : ∀ b ∈ l.eraseIdx index, g (view b) = view b) :
    (l.modify index f).map view = (l.map view).map g := by
  induction l generalizing index with
  | nil => simp at here
  | cons b l ih =>
      cases index with
      | zero =>
          rw [List.getElem?_cons_zero, Option.some.injEq] at here
          subst here
          rw [List.modify_zero_cons, List.map_cons, List.map_cons, List.map_cons, changed,
            List.map_map]
          congr 1
          exact List.map_congr_left fun c member => (others c member).symm
      | succ index =>
          rw [List.eraseIdx_cons_succ, List.forall_mem_cons] at others
          rw [List.modify_succ_cons, List.map_cons, List.map_cons, List.map_cons, others.1,
            ih here others.2]

theorem map_getD_range (l : List α) (default : α) :
    (List.range l.length).map (fun index => l.getD index default) = l := by
  refine List.ext_getElem (by simp) fun index inside stored => ?_
  rw [List.getElem_map, List.getElem_range, List.getD_eq_getElem _ _ stored]

theorem mem_modify {l : List α} {index : Nat} {f : α → α} {a : α} (member : a ∈ l.modify index f) :
    a ∈ l ∨ ∃ b, l[index]? = some b ∧ a = f b := by
  induction l generalizing index with
  | nil => simp at member
  | cons b l ih =>
      cases index with
      | zero =>
          rw [List.modify_zero_cons, List.mem_cons] at member
          rcases member with changed | kept
          · exact .inr ⟨b, rfl, changed⟩
          · exact .inl (List.mem_cons_of_mem b kept)
      | succ index =>
          rw [List.modify_succ_cons, List.mem_cons] at member
          rcases member with same | later
          · exact .inl (same ▸ List.mem_cons_self)
          · rcases ih later with kept | ⟨c, there, changed⟩
            · exact .inl (List.mem_cons_of_mem b kept)
            · exact .inr ⟨c, there, changed⟩

theorem forall₂_map_eq {β : Type} {f : α → β} (agrees : ∀ a b, R a b → f b = f a)
    {first second : List α} (related : List.Forall₂ R first second) : second.map f = first.map f := by
  induction related with
  | nil => rfl
  | cons head _ ih => rw [List.map_cons, List.map_cons, agrees _ _ head, ih]

end KcnTools.Modify
