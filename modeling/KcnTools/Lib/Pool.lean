import Mathlib.Data.Set.Insert
import Mathlib.Data.List.Nodup

/-!
A pool of jobs that several workers hold at once. A job that more than one of them holds
is marked as shared at each; whoever gives up an unshared job puts it back on the free list.
The pool serves a set of keys when exactly these are on the free list or held.
-/

namespace KcnTools.Pool

structure Job (κ : Type) where
  key : κ
  shared : Bool
  deriving DecidableEq

variable {κ : Type} [DecidableEq κ]

def holds (key : κ) (jobs : List (Job κ)) : Bool := jobs.any fun job => job.key = key

def holders (key : κ) (held : List (List (Job κ))) : Nat := held.countP (holds key)

def mark (key : κ) (shared : Bool) (jobs : List (Job κ)) : List (Job κ) :=
  jobs.map fun job => if job.key = key then { job with shared } else job

def settle (key : κ) (held : List (List (Job κ))) : List (List (Job κ)) :=
  if holders key held = 1 then held.map (mark key false) else held

def finish (key : κ) (jobs : List (Job κ)) : List (Job κ) :=
  jobs.filter fun job => job.key ≠ key

structure Serves (wanted : Set κ) (free : List (Job κ)) (held : List (List (Job κ))) : Prop where
  freeNodup : (free.map Job.key).Nodup
  unshared : ∀ job ∈ free, job.shared = false
  unheld : ∀ job ∈ free, holders job.key held = 0
  heldNodup : ∀ jobs ∈ held, (jobs.map Job.key).Nodup
  marked : ∀ jobs ∈ held, ∀ job ∈ jobs, job.shared = decide (2 ≤ holders job.key held)
  served : ∀ key, key ∈ wanted ↔ key ∈ free.map Job.key ∨ 0 < holders key held

variable {wanted : Set κ} {free : List (Job κ)} {held : List (List (Job κ))}
  {jobs : List (Job κ)} {job : Job κ} {key : κ}

theorem holds_iff : holds key jobs = true ↔ key ∈ jobs.map Job.key := by
  simp [holds]

theorem holds_eq_false_iff : holds key jobs = false ↔ key ∉ jobs.map Job.key := by
  rw [← Bool.not_eq_true, holds_iff]

theorem holds_cons (key : κ) (job : Job κ) (jobs : List (Job κ)) :
    holds key (job :: jobs) = (decide (job.key = key) || holds key jobs) := rfl

theorem holds_append (key : κ) (first second : List (Job κ)) :
    holds key (first ++ second) = (holds key first || holds key second) := List.any_append

@[simp] theorem holders_nil (key : κ) : holders key [] = 0 := rfl

theorem holders_cons (key : κ) (jobs : List (Job κ)) (held : List (List (Job κ))) :
    holders key (jobs :: held) = holders key held + (holds key jobs).toNat := by
  rw [holders, holders, List.countP_cons]
  cases holds key jobs <;> rfl

theorem holders_pos (member : jobs ∈ held) (there : job ∈ jobs) : 0 < holders job.key held :=
  List.countP_pos_iff.mpr ⟨jobs, member, holds_iff.mpr (List.mem_map_of_mem there)⟩

theorem holders_eq_zero : holders key held = 0 ↔ ∀ jobs ∈ held, holds key jobs = false := by
  rw [holders, List.countP_eq_zero]
  simp only [Bool.not_eq_true]

theorem mark_keys (key : κ) (shared : Bool) (jobs : List (Job κ)) :
    (mark key shared jobs).map Job.key = jobs.map Job.key := by
  rw [mark, List.map_map]
  refine List.map_congr_left fun job _ => ?_
  simp only [Function.comp_apply]
  split <;> rfl

theorem mark_cons (key : κ) (shared : Bool) (job : Job κ) (jobs : List (Job κ)) :
    mark key shared (job :: jobs) =
      (if job.key = key then { job with shared } else job) :: mark key shared jobs := rfl

theorem finish_cons (key : κ) (job : Job κ) (jobs : List (Job κ)) :
    finish key (job :: jobs) = if job.key = key then finish key jobs else job :: finish key jobs := by
  rw [finish, List.filter_cons]
  by_cases same : job.key = key
  · simp [same, finish]
  · simp [same, finish]

theorem finish_of_not_holds (missing : holds key jobs = false) : finish key jobs = jobs := by
  rw [holds_eq_false_iff] at missing
  refine List.filter_eq_self.mpr fun job member => decide_eq_true fun same => missing ?_
  rw [← same]
  exact List.mem_map_of_mem member

theorem finish_finish (key : κ) (jobs : List (Job κ)) : finish key (finish key jobs) = finish key jobs := by
  rw [finish, finish, List.filter_filter]
  simp

theorem holds_mark (other key : κ) (shared : Bool) (jobs : List (Job κ)) :
    holds other (mark key shared jobs) = holds other jobs := by
  rw [Bool.eq_iff_iff, holds_iff, holds_iff, mark_keys]

theorem mark_of_not_holds (shared : Bool) (missing : holds key jobs = false) :
    mark key shared jobs = jobs := by
  rw [holds_eq_false_iff] at missing
  refine (List.map_congr_left fun job member => ?_).trans (List.map_id jobs)
  have apart : job.key ≠ key := by
    intro same
    rw [← same] at missing
    exact missing (List.mem_map_of_mem member)
  exact if_neg apart

theorem holders_map_mark (other key : κ) (shared : Bool) (held : List (List (Job κ))) :
    holders other (held.map (mark key shared)) = holders other held := by
  rw [holders, holders, List.countP_map]
  refine List.countP_congr fun jobs _ => ?_
  rw [Function.comp_apply, holds_mark]

theorem holders_settle (other key : κ) (held : List (List (Job κ))) :
    holders other (settle key held) = holders other held := by
  rw [settle]
  split
  · exact holders_map_mark other key false held
  · rfl

theorem holders_perm {other : List (List (Job κ))} (perm : other.Perm held) (key : κ) :
    holders key other = holders key held := perm.countP_eq _

theorem settle_perm {other : List (List (Job κ))} (perm : other.Perm held) (key : κ) :
    (settle key other).Perm (settle key held) := by
  rw [settle, settle, holders_perm perm]
  split
  · exact perm.map _
  · exact perm

theorem settle_cons (held : List (List (Job κ))) (missing : holds key jobs = false) :
    settle key (jobs :: held) = jobs :: settle key held := by
  rw [settle, settle, holders_cons, missing, Bool.toNat_false, Nat.add_zero]
  split
  · rw [List.map_cons, mark_of_not_holds false missing]
  · rfl

theorem Serves.perm {otherFree : List (Job κ)} {otherHeld : List (List (Job κ))}
    (serves : Serves wanted free held) (freePerm : otherFree.Perm free)
    (heldPerm : otherHeld.Perm held) : Serves wanted otherFree otherHeld where
  freeNodup := (freePerm.map Job.key).nodup_iff.mpr serves.freeNodup
  unshared job member := serves.unshared job (freePerm.subset member)
  unheld job member := by
    rw [holders_perm heldPerm]
    exact serves.unheld job (freePerm.subset member)
  heldNodup jobs member := serves.heldNodup jobs (heldPerm.subset member)
  marked jobs member job there := by
    rw [holders_perm heldPerm]
    exact serves.marked jobs (heldPerm.subset member) job there
  served key := by
    rw [serves.served, holders_perm heldPerm, (freePerm.map Job.key).mem_iff]

theorem Serves.key_wanted (serves : Serves wanted free held) (member : jobs ∈ held)
    (there : job ∈ jobs) : job.key ∈ wanted :=
  (serves.served job.key).mpr (.inr (holders_pos member there))

theorem Serves.nothing : Serves (∅ : Set κ) [] [] where
  freeNodup := List.nodup_nil
  unshared _ member := absurd member List.not_mem_nil
  unheld _ member := absurd member List.not_mem_nil
  heldNodup _ member := absurd member List.not_mem_nil
  marked _ member := absurd member List.not_mem_nil
  served key := by simp

theorem Serves.idle_iff : Serves wanted free ([] :: held) ↔ Serves wanted free held := by
  have same : ∀ key : κ, holders key ([] :: held) = holders key held := fun key =>
    holders_cons key [] held
  constructor
  · intro serves
    refine ⟨serves.freeNodup, serves.unshared, ?_, ?_, ?_, ?_⟩
    · exact fun job member => (same job.key).symm.trans (serves.unheld job member)
    · exact fun jobs member => serves.heldNodup jobs (List.mem_cons_of_mem _ member)
    · intro jobs member job there
      rw [← same]
      exact serves.marked jobs (List.mem_cons_of_mem _ member) job there
    · intro key
      rw [← same]
      exact serves.served key
  · intro serves
    refine ⟨serves.freeNodup, serves.unshared, ?_, ?_, ?_, ?_⟩
    · exact fun job member => (same job.key).trans (serves.unheld job member)
    · rw [List.forall_mem_cons]
      exact ⟨List.nodup_nil, serves.heldNodup⟩
    · simp only [same]
      rw [List.forall_mem_cons]
      exact ⟨fun job there => absurd there List.not_mem_nil, serves.marked⟩
    · intro key
      rw [same]
      exact serves.served key

theorem holders_append (key : κ) (held : List (List (Job κ)))
    (missing : holds job.key jobs = false) :
    holders key ((jobs ++ [job]) :: held) =
      holders key (jobs :: held) + (decide (job.key = key)).toNat := by
  have last : holds key [job] = decide (job.key = key) := by simp [holds]
  rw [holders_cons, holders_cons, holds_append, last]
  by_cases same : job.key = key
  · subst same
    simp [missing]
  · simp [same]

theorem Serves.take (serves : Serves wanted (job :: free) (jobs :: held)) :
    Serves wanted free ((jobs ++ [job]) :: held) := by
  have unheld := serves.unheld job List.mem_cons_self
  have missing : holds job.key jobs = false :=
    holders_eq_zero.mp unheld jobs List.mem_cons_self
  have counted := fun key => holders_append key held missing
  have freeNodup := serves.freeNodup
  rw [List.map_cons, List.nodup_cons] at freeNodup
  have others : ∀ worker ∈ jobs :: held, ∀ other ∈ worker, other.shared =
      decide (2 ≤ holders other.key ((jobs ++ [job]) :: held)) := by
    intro worker member other there
    have apart : ¬job.key = other.key := by
      intro same
      have positive := holders_pos member there
      rw [← same, unheld] at positive
      omega
    rw [counted, decide_eq_false apart]
    exact serves.marked worker member other there
  refine ⟨freeNodup.2, ?_, ?_, ?_, ?_, ?_⟩
  · exact fun other member => serves.unshared other (List.mem_cons_of_mem job member)
  · intro other member
    have apart : ¬job.key = other.key := by
      intro same
      rw [same] at freeNodup
      exact freeNodup.1 (List.mem_map_of_mem member)
    rw [counted, decide_eq_false apart]
    exact serves.unheld other (List.mem_cons_of_mem job member)
  · have nodup := serves.heldNodup
    rw [List.forall_mem_cons] at nodup ⊢
    refine ⟨?_, nodup.2⟩
    rw [List.map_append, List.nodup_append_comm]
    exact List.nodup_cons.mpr ⟨holds_eq_false_iff.mp missing, nodup.1⟩
  · rw [List.forall_mem_cons] at others ⊢
    refine ⟨fun other member => ?_, others.2⟩
    rcases List.mem_append.mp member with earlier | taken
    · exact others.1 other earlier
    · rw [List.mem_singleton.mp taken, counted, unheld, serves.unshared job List.mem_cons_self]
      simp
  · intro key
    rw [serves.served, counted, List.map_cons, List.mem_cons]
    by_cases same : job.key = key
    · simp [same]
    · have apart : ¬key = job.key := fun equal => same equal.symm
      simp [same, apart]

theorem Serves.introduce {new : List (Job κ)} (serves : Serves wanted free held)
    (nodup : (new.map Job.key).Nodup) (unshared : ∀ job ∈ new, job.shared = false)
    (unwanted : ∀ job ∈ new, job.key ∉ wanted) :
    Serves (wanted ∪ {key | key ∈ new.map Job.key}) (free ++ new) held := by
  refine ⟨?_, ?_, ?_, serves.heldNodup, serves.marked, ?_⟩
  · rw [List.map_append, List.nodup_append]
    refine ⟨serves.freeNodup, nodup, fun key earlier other later same => ?_⟩
    obtain ⟨job, member, rfl⟩ := List.mem_map.mp later
    refine unwanted job member ((serves.served job.key).mpr (.inl ?_))
    rwa [← same]
  · intro job member
    rcases List.mem_append.mp member with earlier | added
    · exact serves.unshared job earlier
    · exact unshared job added
  · intro job member
    rcases List.mem_append.mp member with earlier | added
    · exact serves.unheld job earlier
    · by_contra somebody
      exact unwanted job added ((serves.served job.key).mpr (.inr (Nat.pos_of_ne_zero somebody)))
  · intro key
    rw [Set.mem_union, serves.served, List.map_append, List.mem_append, Set.mem_ofPred_eq]
    tauto

theorem mem_mark {shared : Bool} (member : job ∈ mark key shared jobs) :
    ∃ earlier ∈ jobs, job.key = earlier.key ∧
      job.shared = if job.key = key then shared else earlier.shared := by
  obtain ⟨earlier, there, rfl⟩ := List.mem_map.mp member
  refine ⟨earlier, there, ?_⟩
  by_cases same : earlier.key = key
  · simp [same]
  · simp [same]

theorem Serves.share (serves : Serves wanted free (jobs :: held)) (single : holders key held = 1)
    (missing : holds key jobs = false) :
    Serves wanted free ((jobs ++ [⟨key, true⟩]) :: held.map (mark key true)) := by
  have counted : ∀ other,
      holders other ((jobs ++ [⟨key, true⟩]) :: held.map (mark key true)) =
        holders other (jobs :: held) + (decide (key = other)).toNat := by
    intro other
    have appended := holders_append other (held.map (mark key true))
      (show holds (Job.mk key true).key jobs = false from missing)
    rw [appended, holders_cons, holders_map_mark, ← holders_cons]
  have twice : holders key ((jobs ++ [⟨key, true⟩]) :: held.map (mark key true)) = 2 := by
    rw [counted, holders_cons, single, missing]
    simp
  refine ⟨serves.freeNodup, serves.unshared, ?_, ?_, ?_, ?_⟩
  · intro job member
    have unheld := serves.unheld job member
    have apart : ¬key = job.key := by
      intro same
      rw [← same, holders_cons, single] at unheld
      omega
    rw [counted, decide_eq_false apart]
    exact unheld
  · have nodup := serves.heldNodup
    rw [List.forall_mem_cons] at nodup ⊢
    constructor
    · rw [List.map_append, List.nodup_append_comm]
      exact List.nodup_cons.mpr ⟨holds_eq_false_iff.mp missing, nodup.1⟩
    · intro worker member
      obtain ⟨earlier, there, rfl⟩ := List.mem_map.mp member
      rw [mark_keys]
      exact nodup.2 earlier there
  · have marked := serves.marked
    rw [List.forall_mem_cons] at marked ⊢
    constructor
    · intro job member
      rcases List.mem_append.mp member with earlier | added
      · have apart : ¬key = job.key := by
          intro same
          rw [holds_eq_false_iff, same] at missing
          exact missing (List.mem_map_of_mem earlier)
        rw [counted, decide_eq_false apart]
        exact marked.1 job earlier
      · rw [List.mem_singleton.mp added, twice]
        rfl
    · intro worker member job there
      obtain ⟨before, present, rfl⟩ := List.mem_map.mp member
      obtain ⟨earlier, found, same, shared⟩ := mem_mark there
      by_cases chosen : job.key = key
      · rw [shared, if_pos chosen, chosen, twice]
        rfl
      · have apart : ¬key = job.key := fun equal => chosen equal.symm
        rw [shared, if_neg chosen, counted, decide_eq_false apart, same]
        exact marked.2 before present earlier found
  · intro other
    rw [serves.served, counted]
    by_cases same : key = other
    · subst same
      have before : 0 < holders key (jobs :: held) := by
        rw [holders_cons, single]
        omega
      simp [before]
    · simp [same]

theorem holders_uncons (key : κ) (held : List (List (Job κ)))
    (nodup : ((job :: jobs).map Job.key).Nodup) :
    holders key ((job :: jobs) :: held) =
      holders key (jobs :: held) + (decide (job.key = key)).toNat := by
  rw [List.map_cons, List.nodup_cons, ← holds_eq_false_iff] at nodup
  rw [holders_cons, holders_cons, holds_cons]
  by_cases same : job.key = key
  · subst same
    simp [nodup.1]
  · simp [same]

theorem Serves.release (serves : Serves wanted free ((job :: jobs) :: held))
    (alone : job.shared = false) : Serves wanted (job :: free) (jobs :: held) := by
  have nodup := serves.heldNodup
  rw [List.forall_mem_cons] at nodup
  have counted := fun key => holders_uncons key held nodup.1
  have once := serves.marked _ List.mem_cons_self job List.mem_cons_self
  rw [alone, eq_comm, decide_eq_false_iff_not] at once
  have unheld : holders job.key (jobs :: held) = 0 := by
    rw [counted, decide_eq_true rfl, Bool.toNat_true] at once
    omega
  have apart : ∀ worker ∈ jobs :: held, ∀ other ∈ worker, ¬job.key = other.key := by
    intro worker member other there same
    have positive := holders_pos member there
    rw [← same, unheld] at positive
    omega
  refine ⟨?_, ?_, ?_, ?_, ?_, ?_⟩
  · rw [List.map_cons, List.nodup_cons]
    refine ⟨fun member => ?_, serves.freeNodup⟩
    obtain ⟨other, there, same⟩ := List.mem_map.mp member
    have nobody := serves.unheld other there
    rw [same, counted, decide_eq_true rfl, Bool.toNat_true] at nobody
    omega
  · rw [List.forall_mem_cons]
    exact ⟨alone, serves.unshared⟩
  · rw [List.forall_mem_cons]
    refine ⟨unheld, fun other member => ?_⟩
    have nobody := serves.unheld other member
    rw [counted] at nobody
    omega
  · rw [List.forall_mem_cons]
    refine ⟨?_, nodup.2⟩
    rw [List.map_cons, List.nodup_cons] at nodup
    exact nodup.1.2
  · intro worker member other there
    have marked : other.shared = decide (2 ≤ holders other.key ((job :: jobs) :: held)) := by
      rcases List.mem_cons.mp member with same | later
      · subst same
        exact serves.marked _ List.mem_cons_self other (List.mem_cons_of_mem job there)
      · exact serves.marked worker (List.mem_cons_of_mem _ later) other there
    rw [marked, counted, decide_eq_false (apart worker member other there), Bool.toNat_false,
      Nat.add_zero]
  · intro key
    rw [serves.served, counted, List.map_cons, List.mem_cons]
    by_cases same : job.key = key
    · simp [same]
    · have different : ¬key = job.key := fun equal => same equal.symm
      simp [same, different]

/-- A worker gives up a job that others hold, and the last of these is told. -/
theorem Serves.abandon (serves : Serves wanted free ((job :: jobs) :: held))
    (shared : job.shared = true) : Serves wanted free (jobs :: settle job.key held) := by
  have nodup := serves.heldNodup
  rw [List.forall_mem_cons] at nodup
  have counted := fun key => holders_uncons key held nodup.1
  have settled : ∀ key, holders key (jobs :: settle job.key held) = holders key (jobs :: held) :=
    fun key => by rw [holders_cons, holders_settle, ← holders_cons]
  have distinct := nodup.1
  rw [List.map_cons, List.nodup_cons, ← holds_eq_false_iff] at distinct
  have rest : holders job.key (jobs :: held) = holders job.key held := by
    rw [holders_cons, distinct.1, Bool.toNat_false, Nat.add_zero]
  have several := serves.marked _ List.mem_cons_self job List.mem_cons_self
  rw [shared, eq_comm, decide_eq_true_iff, counted, decide_eq_true rfl, Bool.toNat_true] at several
  have still : ∀ key, 0 < holders key ((job :: jobs) :: held) ↔ 0 < holders key (jobs :: held) := by
    intro key
    rw [counted]
    by_cases same : job.key = key
    · subst same
      omega
    · rw [decide_eq_false same, Bool.toNat_false, Nat.add_zero]
  have marked := serves.marked
  rw [List.forall_mem_cons] at marked
  refine ⟨serves.freeNodup, serves.unshared, ?_, ?_, ?_, ?_⟩
  · intro other member
    have nobody := serves.unheld other member
    rw [counted] at nobody
    rw [settled]
    omega
  · rw [List.forall_mem_cons]
    refine ⟨distinct.2, fun worker member => ?_⟩
    rw [settle] at member
    split at member
    · obtain ⟨earlier, there, rfl⟩ := List.mem_map.mp member
      rw [mark_keys]
      exact nodup.2 earlier there
    · exact nodup.2 worker member
  · have unchanged : ∀ worker ∈ jobs :: held, ∀ other ∈ worker, job.key ≠ other.key →
        other.shared = decide (2 ≤ holders other.key (jobs :: settle job.key held)) := by
      intro worker member other there apart
      have before : other.shared = decide (2 ≤ holders other.key ((job :: jobs) :: held)) := by
        rcases List.mem_cons.mp member with same | later
        · subst same
          exact marked.1 other (List.mem_cons_of_mem job there)
        · exact marked.2 worker later other there
      rw [before, counted, settled, decide_eq_false apart, Bool.toNat_false, Nat.add_zero]
    rw [List.forall_mem_cons]
    constructor
    · intro other there
      refine unchanged jobs List.mem_cons_self other there fun same => ?_
      rw [holds_eq_false_iff, same] at distinct
      exact distinct.1 (List.mem_map_of_mem there)
    · intro worker member other there
      by_cases same : job.key = other.key
      · rw [← same, settled, rest]
        rw [settle] at member
        split at member
        · rename_i single
          obtain ⟨before, _, rfl⟩ := List.mem_map.mp member
          obtain ⟨earlier, _, _, cleared⟩ := mem_mark there
          rw [cleared, if_pos same.symm, single]
          rfl
        · rename_i others
          rw [marked.2 worker member other there, ← same, counted, rest, decide_eq_true rfl]
          rw [rest] at several
          simp only [Bool.toNat_true]
          rw [Bool.eq_iff_iff, decide_eq_true_iff, decide_eq_true_iff]
          omega
      · rw [settle] at member
        split at member
        · obtain ⟨before, present, rfl⟩ := List.mem_map.mp member
          obtain ⟨earlier, found, key, kept⟩ := mem_mark there
          rw [kept, if_neg fun equal => same equal.symm, key]
          rw [key] at same
          exact unchanged before (List.mem_cons_of_mem _ present) earlier found same
        · exact unchanged worker (List.mem_cons_of_mem _ member) other there same
  · intro key
    rw [serves.served, settled, still]

theorem holds_finish (other key : κ) (jobs : List (Job κ)) :
    holds other (finish key jobs) = (holds other jobs && decide (other ≠ key)) := by
  rw [Bool.eq_iff_iff, Bool.and_eq_true, holds_iff, holds_iff, decide_eq_true_eq]
  constructor
  · intro member
    obtain ⟨job, there, rfl⟩ := List.mem_map.mp member
    rw [finish, List.mem_filter, decide_eq_true_eq] at there
    exact ⟨List.mem_map_of_mem there.1, there.2⟩
  · rintro ⟨member, apart⟩
    obtain ⟨job, there, rfl⟩ := List.mem_map.mp member
    exact List.mem_map_of_mem (List.mem_filter.mpr ⟨there, decide_eq_true apart⟩)

theorem holders_finish (other key : κ) (held : List (List (Job κ))) :
    holders other (held.map (finish key)) = if other = key then 0 else holders other held := by
  rw [holders, List.countP_map]
  split
  · rename_i same
    rw [List.countP_eq_zero]
    intro jobs _
    rw [Function.comp_apply, holds_finish]
    simp [same]
  · rename_i apart
    refine List.countP_congr fun jobs _ => ?_
    rw [Function.comp_apply, holds_finish, decide_eq_true apart, Bool.and_true]

theorem Serves.finish (serves : Serves wanted free held) (taken : key ∉ free.map Job.key) :
    Serves (wanted \ {key}) free (held.map (finish key)) := by
  have apart : ∀ job ∈ free, job.key ≠ key := by
    intro job member same
    exact taken (same ▸ List.mem_map_of_mem member)
  refine ⟨serves.freeNodup, serves.unshared, ?_, ?_, ?_, ?_⟩
  · intro job member
    rw [holders_finish, if_neg (apart job member)]
    exact serves.unheld job member
  · intro worker member
    obtain ⟨earlier, there, rfl⟩ := List.mem_map.mp member
    exact (serves.heldNodup earlier there).sublist (List.filter_sublist.map Job.key)
  · intro worker member job there
    obtain ⟨earlier, present, rfl⟩ := List.mem_map.mp member
    rw [Pool.finish, List.mem_filter, decide_eq_true_eq] at there
    rw [holders_finish, if_neg there.2]
    exact serves.marked earlier present job there.1
  · intro other
    rw [Set.mem_sdiff, Set.mem_singleton_iff, serves.served, holders_finish]
    constructor
    · rintro ⟨present, different⟩
      rwa [if_neg different]
    · intro present
      rcases present with free | positive
      · refine ⟨.inl free, fun same => taken (same ▸ free)⟩
      · split at positive
        · omega
        · rename_i different
          exact ⟨.inr positive, different⟩

end KcnTools.Pool
