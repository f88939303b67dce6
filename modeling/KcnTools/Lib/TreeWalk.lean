import Mathlib.Data.List.Basic
import Mathlib.Data.List.Nodup
import Mathlib.Data.List.Perm.Basic
import Mathlib.Logic.Relation

/-! Walks of trees that are given by the children of each node: the order in which nodes are entered, the
order in which they are left, and both with their levels. The depth bounds the recursion. -/

namespace KcnTools.TreeWalk

variable {α : Type} (children : α → List α)

inductive Within : Nat → α → Prop
  | node {depth : Nat} {node : α} : (∀ child ∈ children node, Within depth child) → Within (depth + 1) node

def preorder : Nat → α → List α
  | 0, _ => []
  | depth + 1, node => node :: (children node).flatMap (preorder depth)

def postorder : Nat → α → List α
  | 0, _ => []
  | depth + 1, node => (children node).flatMap (postorder depth) ++ [node]

structure Visit (α : Type) where
  leaving : Bool
  node : α
  level : Nat

def visits : Nat → Nat → α → List (Visit α)
  | 0, _, _ => []
  | depth + 1, level, node =>
    ⟨false, node, level⟩ :: (children node).flatMap (visits depth (level + 1)) ++ [⟨true, node, level⟩]

def entered (walk : List (Visit α)) : List α :=
  walk.filterMap fun visit => if visit.leaving then none else some visit.node

def left (walk : List (Visit α)) : List α :=
  walk.filterMap fun visit => if visit.leaving then some visit.node else none

def Below (node descendant : α) : Prop := Relation.TransGen (fun parent child => child ∈ children parent) node descendant

variable {children}

theorem filterMap_visits {β : Type} (f : Visit α → Option β) (walks : List α) (walk : α → List (Visit α)) :
    (walks.flatMap walk).filterMap f = walks.flatMap fun node => (walk node).filterMap f := by
  induction walks with
  | nil => rfl
  | cons node rest ih => rw [List.flatMap_cons, List.filterMap_append, ih, List.flatMap_cons]

theorem entered_visits (depth level : Nat) (node : α) :
    entered (visits children depth level node) = preorder children depth node := by
  induction depth generalizing level node with
  | zero => rfl
  | succ depth ih =>
    simp only [entered] at ih
    simp [entered, visits, preorder, filterMap_visits, ih]

theorem left_visits (depth level : Nat) (node : α) :
    left (visits children depth level node) = postorder children depth node := by
  induction depth generalizing level node with
  | zero => rfl
  | succ depth ih =>
    simp only [left] at ih
    simp [left, visits, postorder, filterMap_visits, ih]

theorem postorder_perm (depth : Nat) (node : α) :
    (postorder children depth node).Perm (preorder children depth node) := by
  induction depth generalizing node with
  | zero => exact List.Perm.refl _
  | succ depth ih =>
    rw [postorder, preorder]
    refine List.perm_append_comm.trans (List.Perm.cons node ?_)
    exact List.Perm.flatMap_left _ fun child _ => ih child

theorem Within.mem_preorder {depth : Nat} {node : α} (within : Within children depth node) :
    node ∈ preorder children depth node := by
  cases within with
  | node => exact List.mem_cons_self

theorem Within.child {depth : Nat} {node child : α} (within : Within children (depth + 1) node)
    (member : child ∈ children node) : Within children depth child := by
  cases within with
  | node inner => exact inner child member

theorem Within.below_mem {depth : Nat} {node descendant : α} (within : Within children depth node)
    (below : Below children node descendant) : descendant ∈ preorder children depth node := by
  induction depth generalizing node with
  | zero => cases within
  | succ depth ih =>
    rw [preorder, List.mem_cons, List.mem_flatMap]
    obtain ⟨child, member, path⟩ := Relation.TransGen.head'_iff.mp below
    refine Or.inr ⟨child, member, ?_⟩
    rcases Relation.reflTransGen_iff_eq_or_transGen.mp path with rfl | deeper
    · exact (within.child member).mem_preorder
    · exact ih (within.child member) deeper

theorem Within.below_child {depth : Nat} {node descendant : α} (within : Within children (depth + 1) node)
    (below : Below children node descendant) :
    ∃ child ∈ children node, descendant ∈ preorder children depth child := by
  obtain ⟨child, member, path⟩ := Relation.TransGen.head'_iff.mp below
  refine ⟨child, member, ?_⟩
  rcases Relation.reflTransGen_iff_eq_or_transGen.mp path with rfl | deeper
  · exact (within.child member).mem_preorder
  · exact (within.child member).below_mem deeper

theorem Within.mem_preorder_iff {depth : Nat} {root node : α} (within : Within children depth root) :
    node ∈ preorder children depth root ↔ node = root ∨ Below children root node := by
  constructor
  · intro member
    induction depth generalizing root with
    | zero => cases within
    | succ depth ih =>
      rcases List.mem_cons.mp member with same | inner
      · exact Or.inl same
      · obtain ⟨child, inside, deeper⟩ := List.mem_flatMap.mp inner
        rcases ih (within.child inside) deeper with rfl | below
        · exact Or.inr (Relation.TransGen.single inside)
        · exact Or.inr (Relation.TransGen.head inside below)
  · rintro (rfl | below)
    · exact within.mem_preorder
    · exact within.below_mem below

theorem Within.left_after {depth : Nat} {root node descendant : α} (within : Within children depth root)
    (member : node ∈ preorder children depth root) (below : Below children node descendant) :
    [descendant, node].Sublist (postorder children depth root) := by
  induction depth generalizing root with
  | zero => cases within
  | succ depth ih =>
    rw [postorder]
    rcases List.mem_cons.mp member with rfl | inner
    · obtain ⟨child, inside, deeper⟩ := within.below_child below
      have listed : descendant ∈ (children node).flatMap (postorder children depth) :=
        List.mem_flatMap.mpr ⟨child, inside, (postorder_perm depth child).mem_iff.mpr deeper⟩
      exact (List.singleton_sublist.mpr listed).append (List.Sublist.refl [node])
    · obtain ⟨child, inside, deeper⟩ := List.mem_flatMap.mp inner
      have block : (postorder children depth child).Sublist ((children root).flatMap (postorder children depth)) :=
        List.sublist_flatten_of_mem (List.mem_map_of_mem inside)
      exact ((ih (within.child inside) deeper).trans block).trans (List.sublist_append_left _ _)

theorem nodup_child {depth : Nat} {node child : α} (distinct : (preorder children (depth + 1) node).Nodup)
    (member : child ∈ children node) : (preorder children depth child).Nodup :=
  (List.nodup_flatMap.mp (List.nodup_cons.mp distinct).2).1 child member

theorem Within.nodup_children {depth : Nat} {node : α} (within : Within children (depth + 1) node)
    (distinct : (preorder children (depth + 1) node).Nodup) : (children node).Nodup := by
  have apart := (List.nodup_flatMap.mp (List.nodup_cons.mp distinct).2).2
  refine apart.imp_of_mem ?_
  intro first second inside _ disjoint same
  exact disjoint (within.child inside).mem_preorder (same ▸ (within.child inside).mem_preorder)

end KcnTools.TreeWalk
