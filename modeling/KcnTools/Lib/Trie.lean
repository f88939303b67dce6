import Mathlib.Data.List.Induction
import Mathlib.Data.List.Nodup
import Mathlib.Tactic.Common

/-!
A keyword trie with numbered nodes. What is found below a node is read off the words once the
nodes are known to stand for the proper prefixes of these.
-/

namespace KcnTools.Trie

variable {σ δ : Type}

/-- The data of the word that ends with a letter behind a node, and the node below that letter. -/
@[ext] structure Nodes (σ δ : Type) where
  mark : Nat → σ → Option δ
  child : Nat → σ → Option Nat

def find (nodes : Nodes σ δ) : Nat → List σ → Option δ
  | _, [] => none
  | node, [letter] => nodes.mark node letter
  | node, letter :: next :: rest =>
      (nodes.child node letter).bind fun below => find nodes below (next :: rest)

/-- Each node stands for one path, and its marks and children are those of the words. -/
structure Stores (nodes : Nodes σ δ) (paths : List (List σ)) (words : List (List σ × δ)) : Prop where
  distinct : paths.Nodup
  closed : ∀ path letter, path ++ [letter] ∈ paths → path ∈ paths
  child : ∀ node path letter below, paths[node]? = some path →
    (nodes.child node letter = some below ↔ paths[below]? = some (path ++ [letter]))
  mark : ∀ node path letter data, paths[node]? = some path →
    (nodes.mark node letter = some data ↔ (path ++ [letter], data) ∈ words)
  reached : ∀ path rest data, (path ++ rest, data) ∈ words → rest ≠ [] → path ∈ paths

variable {nodes : Nodes σ δ} {paths : List (List σ)} {words : List (List σ × δ)}

theorem Stores.find_iff (stores : Stores nodes paths words) {node : Nat} {path rest : List σ}
    (here : paths[node]? = some path) (more : rest ≠ []) (data : δ) :
    find nodes node rest = some data ↔ (path ++ rest, data) ∈ words := by
  induction rest generalizing node path with
  | nil => exact absurd rfl more
  | cons letter rest ih =>
      cases rest with
      | nil => exact stores.mark node path letter data here
      | cons next rest =>
          rw [find, Option.bind_eq_some_iff]
          constructor
          · rintro ⟨below, child, found⟩
            have there := (stores.child node path letter below here).mp child
            have member := (ih there (List.cons_ne_nil next rest)).mp found
            rwa [List.append_assoc] at member
          · intro member
            have split : path ++ letter :: next :: rest = (path ++ [letter]) ++ next :: rest := by simp
            rw [split] at member
            obtain ⟨below, there⟩ := List.mem_iff_getElem?.mp
              (stores.reached _ _ _ member (List.cons_ne_nil next rest))
            exact ⟨below, (stores.child node path letter below here).mpr there,
              (ih there (List.cons_ne_nil next rest)).mpr member⟩

theorem Stores.closed_append (stores : Stores nodes paths words) {path rest : List σ}
    (member : path ++ rest ∈ paths) : path ∈ paths := by
  induction rest using List.reverseRecOn with
  | nil => rwa [List.append_nil] at member
  | append_singleton rest letter ih =>
      rw [← List.append_assoc] at member
      exact ih (stores.closed _ _ member)

theorem Stores.child_eq_none (stores : Stores nodes paths words) {node : Nat} {path : List σ}
    {letter : σ} (here : paths[node]? = some path) :
    nodes.child node letter = none ↔ path ++ [letter] ∉ paths := by
  constructor
  · intro nothing member
    obtain ⟨below, there⟩ := List.mem_iff_getElem?.mp member
    rw [(stores.child node path letter below here).mpr there] at nothing
    cases nothing
  · intro missing
    cases found : nodes.child node letter with
    | none => rfl
    | some below =>
        exact absurd (List.mem_of_getElem? ((stores.child node path letter below here).mp found)) missing

theorem Stores.addNode (stores : Stores nodes paths words) {next : Nodes σ δ} {node : Nat}
    {path : List σ} {letter : σ} (here : paths[node]? = some path)
    (missing : path ++ [letter] ∉ paths)
    (sameMark : ∀ other < paths.length, ∀ a, next.mark other a = nodes.mark other a)
    (sameChild : ∀ other < paths.length, ∀ a, ¬ (other = node ∧ a = letter) →
      next.child other a = nodes.child other a)
    (linked : next.child node letter = some paths.length)
    (noMark : ∀ a, next.mark paths.length a = none) (noChild : ∀ a, next.child paths.length a = none) :
    Stores next (paths ++ [path ++ [letter]]) words := by
  have added : ∀ (other : Nat) (otherPath : List σ), (paths ++ [path ++ [letter]])[other]? = some otherPath →
      (other < paths.length ∧ paths[other]? = some otherPath) ∨
        (other = paths.length ∧ otherPath = path ++ [letter]) := by
    intro other otherPath found
    rcases Nat.lt_trichotomy other paths.length with before | last | behind
    · rw [List.getElem?_append_left before] at found
      exact .inl ⟨before, found⟩
    · rw [last, List.getElem?_concat_length] at found
      exact .inr ⟨last, (Option.some.inj found).symm⟩
    · rw [List.getElem?_eq_none (by simp; omega)] at found
      cases found
  have kept : ∀ (other : Nat) (otherPath : List σ), paths[other]? = some otherPath →
      (paths ++ [path ++ [letter]])[other]? = some otherPath := by
    intro other otherPath found
    have before := (List.getElem?_eq_some_iff.mp found).1
    rw [List.getElem?_append_left before, found]
  have position : ∀ other : Nat, (paths ++ [path ++ [letter]])[other]? = some (path ++ [letter]) ↔
      other = paths.length := by
    intro other
    constructor
    · intro found
      rcases added other _ found with ⟨_, old⟩ | ⟨last, _⟩
      · exact absurd (List.mem_of_getElem? old) missing
      · exact last
    · rintro rfl
      exact List.getElem?_concat_length
  constructor
  · refine List.nodup_append.mpr ⟨stores.distinct, List.nodup_singleton _, ?_⟩
    rintro _ member _ last rfl
    exact missing (List.mem_singleton.mp last ▸ member)
  · intro other a member
    rcases List.mem_append.mp member with old | new
    · exact List.mem_append_left _ (stores.closed other a old)
    · have parent := (List.append_inj' (List.mem_singleton.mp new) rfl).1
      rw [parent]
      exact List.mem_append_left _ (List.mem_of_getElem? here)
  · intro other otherPath a below found
    rcases added other otherPath found with ⟨before, old⟩ | ⟨last, new⟩
    · by_cases edge : other = node ∧ a = letter
      · obtain ⟨rfl, rfl⟩ := edge
        obtain rfl : path = otherPath := Option.some.inj (here.symm.trans old)
        rw [linked, position below, Option.some.injEq]
        exact eq_comm
      · rw [sameChild other before a edge, stores.child other otherPath a below old]
        constructor
        · exact kept below _
        · intro there
          rcases added below _ there with ⟨_, kept⟩ | ⟨_, same⟩
          · exact kept
          · obtain ⟨samePath, sameLetter⟩ := List.append_inj' same rfl
            rw [samePath] at old
            have sameNode := (List.getElem?_inj before stores.distinct).mp (old.trans here.symm)
            exact absurd ⟨sameNode, List.cons.inj sameLetter |>.1⟩ edge
    · rw [last, noChild a]
      constructor
      · intro found
        cases found
      · intro there
        rcases added below _ there with ⟨_, old⟩ | ⟨_, same⟩
        · rw [new] at old
          exact absurd (stores.closed _ a (List.mem_of_getElem? old)) missing
        · have lengths := congrArg List.length same
          rw [new] at lengths
          simp at lengths
  · intro other otherPath a data found
    rcases added other otherPath found with ⟨before, old⟩ | ⟨last, new⟩
    · rw [sameMark other before a]
      exact stores.mark other otherPath a data old
    · rw [last, noMark a]
      constructor
      · intro found
        cases found
      · intro member
        rw [new] at member
        exact absurd (stores.reached _ [a] data member (List.cons_ne_nil a [])) missing
  · intro other rest data member more
    exact List.mem_append_left _ (stores.reached other rest data member more)

theorem Stores.addWord (stores : Stores nodes paths words) {next : Nodes σ δ} {node : Nat}
    {path : List σ} {letter : σ} {data : δ} (here : paths[node]? = some path)
    (fresh : ∀ old, (path ++ [letter], old) ∉ words)
    (sameChild : ∀ other < paths.length, ∀ a, next.child other a = nodes.child other a)
    (sameMark : ∀ other < paths.length, ∀ a, ¬ (other = node ∧ a = letter) →
      next.mark other a = nodes.mark other a)
    (marked : next.mark node letter = some data) :
    Stores next paths (words ++ [(path ++ [letter], data)]) := by
  constructor
  · exact stores.distinct
  · exact stores.closed
  · intro other otherPath a below found
    rw [sameChild other (List.getElem?_eq_some_iff.mp found).1 a]
    exact stores.child other otherPath a below found
  · intro other otherPath a found there
    have before := (List.getElem?_eq_some_iff.mp there).1
    rw [List.mem_append, List.mem_singleton, Prod.mk.injEq]
    by_cases edge : other = node ∧ a = letter
    · obtain ⟨rfl, rfl⟩ := edge
      obtain rfl : path = otherPath := Option.some.inj (here.symm.trans there)
      rw [marked, Option.some.injEq]
      constructor
      · rintro rfl
        exact .inr ⟨rfl, rfl⟩
      · rintro (old | ⟨_, same⟩)
        · exact absurd old (fresh found)
        · exact same.symm
    · rw [sameMark other before a edge, stores.mark other otherPath a found there]
      constructor
      · exact .inl
      · rintro (old | ⟨same, _⟩)
        · exact old
        · obtain ⟨samePath, sameLetter⟩ := List.append_inj' same rfl
          rw [samePath] at there
          have sameNode := (List.getElem?_inj before stores.distinct).mp (there.trans here.symm)
          exact absurd ⟨sameNode, (List.cons.inj sameLetter).1⟩ edge
  · intro other rest found member more
    rcases List.mem_append.mp member with old | new
    · exact stores.reached other rest found old more
    · rw [List.mem_singleton, Prod.mk.injEq] at new
      obtain ⟨front, last, rfl⟩ := (List.eq_nil_or_concat rest).resolve_left more
      have same := new.1
      rw [List.concat_eq_append, ← List.append_assoc] at same
      have whole := (List.append_inj' same rfl).1
      exact stores.closed_append (whole ▸ List.mem_of_getElem? here)

end KcnTools.Trie
