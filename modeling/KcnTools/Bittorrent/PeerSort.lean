import KcnTools.Lib.Counting
import Mathlib

/-! The sorting of the peers by their download rate (`sort_bittorrent_peer_connections`), as
operations on the linked list that the loop walks while it changes it. -/

namespace KcnTools.Bittorrent

open Inversions

section Loops
variable {β α : Type} [DecidableEq β] [LinearOrder α]

def delFromList (list : List β) (node : β) : List β := list.erase node

def addAtPos (list : List β) (position node : β) : List β :=
  list.flatMap fun other => if other = position then [other, node] else [other]

/-- `(node)->next`, the list head being `none`. -/
def nextInList (list : List β) (node : β) : Option β :=
  (list.dropWhile fun other => decide (other ≠ node)).tail.head?

structure SortPass (β : Type) where
  peers : List β
  prev : Option β
  resort : Bool

variable (downloadRate : β → α)

def sortStep (pass : SortPass β) (peer : β) : SortPass β :=
  match pass.prev with
  | none => { pass with prev := some peer }
  | some prev =>
      if downloadRate prev < downloadRate peer then
        ⟨addAtPos (delFromList pass.peers prev) peer prev, some peer, true⟩
      else { pass with prev := some peer }

/-- The loop over the peers, `next` being read before the body changes the list; `none` when
the steps run out. -/
def sortLoop : Nat → SortPass β → Option β → Option β → Option (SortPass β)
  | _, pass, none, _ => some pass
  | 0, _, some _, _ => none
  | steps + 1, pass, some peer, next =>
      let pass := sortStep downloadRate pass peer
      sortLoop steps pass next (next.bind (nextInList pass.peers))

def sortPass (steps : Nat) (peers : List β) : Option (SortPass β) :=
  sortLoop downloadRate steps ⟨peers, none, false⟩ peers.head? (peers.head?.bind (nextInList peers))

/-- `sort_bittorrent_peer_connections`, with at most so many steps in a pass and so many passes. -/
def sortBittorrentPeerConnections (steps : Nat) : Nat → List β → Option (List β)
  | 0, _ => none
  | passes + 1, peers =>
      match sortPass downloadRate steps peers with
      | none => none
      | some pass =>
          if pass.resort then sortBittorrentPeerConnections steps passes pass.peers else some pass.peers

end Loops

section Lists
variable {β : Type} [DecidableEq β] {front back : List β} {node other : β}

theorem nextInList_append (apart : node ∉ front) : nextInList (front ++ node :: back) node = back.head? := by
  have passed : (front ++ node :: back).dropWhile (fun other => decide (other ≠ node)) = node :: back := by
    rw [List.dropWhile_append_of_pos]
    · rw [List.dropWhile_cons_of_neg (by simp)]
    · intro other member
      rw [decide_eq_true_eq]
      rintro rfl
      exact apart member
  rw [nextInList, passed, List.tail_cons]

theorem addAtPos_of_not_mem (apart : node ∉ front) : addAtPos front node other = front := by
  induction front with
  | nil => rfl
  | cons first front ih =>
      rw [List.mem_cons, not_or] at apart
      have rest : addAtPos front node other = front := ih apart.2
      rw [addAtPos, List.flatMap_cons, if_neg (Ne.symm apart.1)]
      exact congrArg (first :: ·) rest

theorem addAtPos_append (inFront : node ∉ front) (inBack : node ∉ back) :
    addAtPos (front ++ node :: back) node other = front ++ node :: other :: back := by
  have first : addAtPos front node other = front := addAtPos_of_not_mem inFront
  have last : addAtPos back node other = back := addAtPos_of_not_mem inBack
  rw [addAtPos] at first last ⊢
  rw [List.flatMap_append, List.flatMap_cons, first, last, if_pos rfl]
  rfl

theorem moveBehind {before after : List β} {prev peer : β} (nodup : (before ++ prev :: (after ++ peer :: back)).Nodup) :
    addAtPos (delFromList (before ++ prev :: (after ++ peer :: back)) prev) peer prev =
      before ++ (after ++ peer :: prev :: back) := by
  have apart : prev ∉ before := fun member =>
    (List.nodup_append.mp nodup).2.2 prev member prev List.mem_cons_self rfl
  have left : (before ++ (after ++ peer :: back)).Nodup :=
    List.Nodup.sublist ((List.sublist_cons_self _ _).append_left before) nodup
  rw [← List.append_assoc] at left
  have inBefore : peer ∉ before ++ after := fun member =>
    (List.nodup_append.mp left).2.2 peer member peer List.mem_cons_self rfl
  have inBack : peer ∉ back := (List.nodup_cons.mp (List.nodup_append.mp left).2.1).1
  rw [delFromList, List.erase_append_right _ apart, List.erase_cons_head, ← List.append_assoc,
    addAtPos_append inBefore inBack, List.append_assoc]

end Lists

section Passes
variable {β α : Type} [LinearOrder α] {downloadRate : β → α} {original front rest : List β}

/-- Where `prev` is: last in the visited part, but for the node that was just moved behind it. -/
def PrevAt (downloadRate : β → α) (front : List β) (pass : SortPass β) : Prop :=
  front = [] ∧ pass.prev = none ∨
    ∃ before prev after, front = before ++ prev :: after ∧ pass.prev = some prev ∧
      (after = [] ∨ ∃ low, after = [low] ∧ downloadRate low < downloadRate prev ∧ pass.resort = true)

/-- A pass on its way: `front` has been visited, `rest` has not. -/
structure Passing (downloadRate : β → α) (original front rest : List β) (pass : SortPass β) : Prop where
  peers : pass.peers = front ++ rest
  perm : (front ++ rest).Perm original
  prev : PrevAt downloadRate front pass
  fewer : inversions downloadRate (front ++ rest) + pass.resort.toNat ≤ inversions downloadRate original
  sorted : pass.resort = false → front.Pairwise fun first second => downloadRate second ≤ downloadRate first

theorem passing_start (downloadRate : β → α) (peers : List β) : Passing downloadRate peers [] peers
    ⟨peers, none, false⟩ where
  peers := rfl
  perm := List.Perm.refl _
  prev := .inl ⟨rfl, rfl⟩
  fewer := Nat.le_refl _
  sorted _ := List.Pairwise.nil

/-- A node moved behind a greater one undoes an inversion; the one that it may jump over as well
costs one. -/
theorem inversions_moved (before rest : List β) {after : List β} {prev peer : β}
    (less : downloadRate prev < downloadRate peer)
    (low : after = [] ∨ ∃ low, after = [low] ∧ downloadRate low < downloadRate prev) :
    inversions downloadRate (before ++ (after ++ peer :: prev :: rest)) + (if after = [] then 1 else 0) =
      inversions downloadRate (before ++ prev :: (after ++ peer :: rest)) := by
  have stretch := inversions_stretch downloadRate before rest
    (show (prev :: (after ++ [peer])).Perm (after ++ [peer, prev]) by
      rw [show after ++ [peer, prev] = (after ++ [peer]) ++ [prev] by simp]
      exact (List.perm_append_singleton prev (after ++ [peer])).symm)
  have notLess := not_lt_of_gt less
  rcases low with rfl | ⟨low, rfl, lower⟩
  · simp only [List.append_assoc, List.cons_append, List.nil_append] at stretch ⊢
    simp [inversions, less, notLess] at stretch ⊢
    omega
  · have lowest := lt_trans lower less
    have notLower := not_lt_of_gt lower
    simp only [List.append_assoc, List.cons_append, List.nil_append] at stretch ⊢
    simp [inversions, less, notLess, lower, notLower, lowest] at stretch ⊢
    omega

variable [DecidableEq β]

theorem sortStep_swap {pass : SortPass β} {before after : List β} {prev peer : β} (nodup : original.Nodup)
    (passing : Passing downloadRate original (before ++ prev :: after) (peer :: rest) pass)
    (here : pass.prev = some prev)
    (low : after = [] ∨ ∃ low, after = [low] ∧ downloadRate low < downloadRate prev ∧ pass.resort = true)
    (less : downloadRate prev < downloadRate peer) :
    Passing downloadRate original (before ++ (after ++ [peer, prev])) rest (sortStep downloadRate pass peer) := by
  have joined : before ++ prev :: after ++ peer :: rest = before ++ prev :: (after ++ peer :: rest) := by simp
  have left : before ++ (after ++ [peer, prev]) ++ rest = before ++ (after ++ peer :: prev :: rest) := by simp
  have perm := passing.perm
  have fewer := passing.fewer
  rw [joined] at perm fewer
  have moved := inversions_moved before rest less
    (low.imp_right fun ⟨low, same, lower, _⟩ => ⟨low, same, lower⟩)
  have stepped : sortStep downloadRate pass peer =
      ⟨before ++ (after ++ peer :: prev :: rest), some peer, true⟩ := by
    rw [sortStep, here]
    dsimp only
    rw [if_pos less, passing.peers, joined, moveBehind (perm.nodup_iff.mpr nodup)]
  rw [stepped]
  refine ⟨left.symm, ?_, ?_, ?_, nofun⟩
  · rw [left]
    refine List.Perm.trans ?_ perm
    apply List.Perm.append_left
    rw [show after ++ peer :: prev :: rest = (after ++ [peer]) ++ prev :: rest by simp,
      show prev :: (after ++ peer :: rest) = prev :: ((after ++ [peer]) ++ rest) by simp]
    exact List.perm_middle
  · exact .inr ⟨before ++ after, peer, [prev], by simp, rfl, .inr ⟨prev, rfl, less, rfl⟩⟩
  · rw [left]
    rcases low with rfl | ⟨low, rfl, _, resorted⟩
    · rw [if_pos rfl] at moved
      show _ + 1 ≤ _
      omega
    · rw [if_neg (List.cons_ne_nil _ _)] at moved
      rw [resorted] at fewer
      show _ + 1 ≤ _
      change _ + 1 ≤ _ at fewer
      omega

theorem sortStep_stay {pass : SortPass β} {peer : β} (passing : Passing downloadRate original front (peer :: rest) pass)
    (ordered : ∀ prev ∈ pass.prev, ¬ downloadRate prev < downloadRate peer) :
    Passing downloadRate original (front ++ [peer]) rest (sortStep downloadRate pass peer) := by
  have joined : front ++ [peer] ++ rest = front ++ peer :: rest := by simp
  have stepped : sortStep downloadRate pass peer = { pass with prev := some peer } := by
    unfold sortStep
    cases here : pass.prev with
    | none => rfl
    | some prev => exact if_neg (ordered prev here)
  rw [stepped]
  refine ⟨passing.peers.trans joined.symm, ?_, ?_, ?_, ?_⟩
  · rw [joined]
    exact passing.perm
  · exact .inr ⟨front, peer, [], rfl, rfl, .inl rfl⟩
  · rw [joined]
    exact passing.fewer
  · intro unsorted
    have sorted := passing.sorted unsorted
    rw [List.pairwise_append]
    refine ⟨sorted, List.pairwise_singleton _ _, ?_⟩
    intro first member second last
    rw [List.mem_singleton.mp last]
    rcases passing.prev with ⟨rfl, _⟩ | ⟨before, prev, after, rfl, here, rfl | ⟨low, _, _, resorted⟩⟩
    · cases member
    · have least := not_lt.mp (ordered prev here)
      rcases List.mem_append.mp member with earlier | last
      · exact le_trans least ((List.pairwise_append.mp sorted).2.2 first earlier prev List.mem_cons_self)
      · rw [List.mem_singleton.mp last]
        exact least
    · rw [unsorted] at resorted
      cases resorted

theorem sortStep_passing {pass : SortPass β} {peer : β} (nodup : original.Nodup)
    (passing : Passing downloadRate original front (peer :: rest) pass) :
    ∃ front', Passing downloadRate original front' rest (sortStep downloadRate pass peer) := by
  rcases passing.prev with ⟨rfl, none⟩ | ⟨before, prev, after, rfl, here, low⟩
  · exact ⟨_, sortStep_stay passing (by rw [none]; nofun)⟩
  · by_cases less : downloadRate prev < downloadRate peer
    · exact ⟨_, sortStep_swap nodup passing here low less⟩
    · refine ⟨_, sortStep_stay passing ?_⟩
      intro other same
      rw [here, Option.mem_some_iff] at same
      rw [← same]
      exact less

theorem sortLoop_passing {steps : Nat} {pass : SortPass β} (nodup : original.Nodup)
    (passing : Passing downloadRate original front rest pass) (enough : rest.length ≤ steps) :
    ∃ final front', sortLoop downloadRate steps pass rest.head? rest.tail.head? = some final ∧
      Passing downloadRate original front' [] final := by
  induction rest generalizing steps front pass with
  | nil => exact ⟨pass, front, by cases steps <;> rfl, passing⟩
  | cons peer rest ih =>
      obtain ⟨steps, rfl⟩ : ∃ fewer, steps = fewer + 1 := ⟨steps - 1, by rw [List.length_cons] at enough; omega⟩
      obtain ⟨front', stepped⟩ := sortStep_passing nodup passing
      obtain ⟨final, front'', looped, finished⟩ := ih stepped (Nat.le_of_succ_le_succ enough)
      refine ⟨final, front'', ?_, finished⟩
      rw [List.head?_cons, List.tail_cons, sortLoop, ← looped]
      congr 1
      cases rest with
      | nil => rfl
      | cons next rest =>
          rw [List.head?_cons, Option.bind_some, stepped.peers]
          apply nextInList_append
          intro member
          have distinct := stepped.perm.nodup_iff.mpr nodup
          exact (List.nodup_append.mp distinct).2.2 next member next List.mem_cons_self rfl

/-- A pass that changes the list undoes an inversion, one that does not has found it sorted. -/
theorem sortPass_spec (downloadRate : β → α) {steps : Nat} {peers : List β} (nodup : peers.Nodup)
    (enough : peers.length ≤ steps) :
    ∃ final, sortPass downloadRate steps peers = some final ∧ final.peers.Perm peers ∧
      (final.resort = true → inversions downloadRate final.peers < inversions downloadRate peers) ∧
      (final.resort = false → final.peers.Pairwise fun first second => downloadRate second ≤ downloadRate first) := by
  obtain ⟨final, front, looped, passing⟩ := sortLoop_passing nodup (passing_start downloadRate peers) enough
  have all : final.peers = front := by rw [passing.peers, List.append_nil]
  refine ⟨final, ?_, ?_, fun resorted => ?_, fun unsorted => ?_⟩
  · rw [← looped, sortPass]
    congr 1
    cases peers with
    | nil => rfl
    | cons peer peers =>
        show nextInList ([] ++ peer :: peers) peer = peers.head?
        exact nextInList_append List.not_mem_nil
  · rw [passing.peers]
    exact passing.perm
  · have fewer := passing.fewer
    rw [resorted, ← passing.peers] at fewer
    exact fewer
  · rw [all]
    exact passing.sorted unsorted

end Passes

/-- The sorting ends, after no more passes than the list has inversions and one, and what it
leaves are the same peers in the order of their rates. -/
theorem sortBittorrentPeerConnections_sorts {β α : Type} [DecidableEq β] [LinearOrder α] (downloadRate : β → α)
    (peers : List β) (nodup : peers.Nodup) (steps passes : Nat) (enough : peers.length ≤ steps)
    (rounds : inversions downloadRate peers < passes) :
    ∃ sorted, sortBittorrentPeerConnections downloadRate steps passes peers = some sorted ∧ sorted.Perm peers ∧
      sorted.Pairwise fun first second => downloadRate second ≤ downloadRate first := by
  induction passes generalizing peers with
  | zero => exact absurd rounds (Nat.not_lt_zero _)
  | succ passes ih =>
      obtain ⟨final, passed, perm, fewer, ordered⟩ := sortPass_spec downloadRate nodup enough
      rw [sortBittorrentPeerConnections, passed]
      cases resorted : final.resort with
      | false =>
          refine ⟨final.peers, ?_, perm, ordered resorted⟩
          exact if_neg (by rw [resorted]; decide)
      | true =>
          have less := fewer resorted
          obtain ⟨sorted, found, same, order⟩ := ih final.peers (perm.nodup_iff.mpr nodup)
            (by rw [perm.length_eq]; exact enough) (by omega)
          exact ⟨sorted, (if_pos resorted).trans found, same.trans perm, order⟩

/-- Three peers that are in the wrong order take three passes, and one more to see it. -/
theorem sortBittorrentPeerConnections_sorts_three :
    ∃ sorted, sortBittorrentPeerConnections (fun peer : Nat => peer) 3 4 [1, 2, 3] = some sorted ∧
      sorted.Perm [1, 2, 3] ∧ sorted.Pairwise fun first second => second ≤ first :=
  sortBittorrentPeerConnections_sorts (fun peer : Nat => peer) [1, 2, 3] (by decide) 3 4 (by decide) (by decide)

example : sortBittorrentPeerConnections (fun peer : Nat => peer) 3 4 [1, 2, 3] = some [3, 2, 1] := by decide

end KcnTools.Bittorrent
