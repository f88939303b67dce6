import Mathlib

/-!
Marks for the last numbers of a growing sequence, kept modulo the size of the window. A new number
shares its mark with the one that leaves the window, so the mark is cleared.
-/

namespace KcnTools.MarkWindow

/-- Of the first `count` numbers, the marks tell for the last `size` ones which are `marked`. -/
def Tracks (size count : Nat) (marks : Nat → Bool) (marked : Finset Nat) : Prop :=
  ∀ number < count, count ≤ number + size → (marks (number % size) = true ↔ number ∈ marked)

variable {size count number other : Nat} {marks changed : Nat → Bool} {marked : Finset Nat}

theorem mod_ne (less : other < number) (near : number < other + size) : other % size ≠ number % size := by
  intro same
  obtain ⟨gap, rfl⟩ := Nat.exists_eq_add_of_lt less
  have whole : size ∣ other + gap + 1 - other := (Nat.modEq_iff_dvd' (by omega)).mp same
  have bound := Nat.le_of_dvd (by omega) whole
  omega

theorem tracks_zero (marks : Nat → Bool) (marked : Finset Nat) : Tracks size 0 marks marked :=
  fun _ below => absurd below (Nat.not_lt_zero _)

theorem Tracks.next (tracks : Tracks size count marks marked) (fresh : count ∉ marked)
    (cleared : ∀ other,
      changed (other % size) = (marks (other % size) && decide (other % size ≠ count % size))) :
    Tracks size (count + 1) changed marked := by
  intro number below recent
  rw [cleared]
  rcases Nat.lt_succ_iff_lt_or_eq.mp below with older | rfl
  · have apart := mod_ne older (show count < number + size by omega)
    rw [decide_eq_true apart, Bool.and_true]
    exact tracks number older (by omega)
  · simp [fresh]

theorem Tracks.mark (tracks : Tracks size count marks marked) (sent : number < count)
    (recent : count ≤ number + size)
    (set : ∀ other,
      changed (other % size) = (marks (other % size) || decide (other % size = number % size))) :
    Tracks size count changed (insert number marked) := by
  intro other below inside
  rw [set, Bool.or_eq_true, decide_eq_true_eq, Finset.mem_insert, tracks other below inside]
  have same : other % size = number % size ↔ other = number := by
    refine ⟨fun equal => ?_, fun equal => equal ▸ rfl⟩
    rcases Nat.lt_trichotomy other number with less | equals | more
    · exact absurd equal (mod_ne less (by omega))
    · exact equals
    · exact absurd equal.symm (mod_ne more (by omega))
  rw [same, or_comm]

end KcnTools.MarkWindow
