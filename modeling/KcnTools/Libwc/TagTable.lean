import KcnTools.Lib.Run

/-!
The table of language tags: a text marks its language with a tag, and a character keeps the number
of the tag. The numbers are never given back, and the counter is raised in front of the test for room.
-/

namespace KcnTools.Tags

def MAX_TAG_MAP : Nat := 0x100

structure TagTable where
  nTagMap : Nat
  tagMap : List (Option (List UInt8))

def emptyTable : TagTable := ⟨0, List.replicate MAX_TAG_MAP none⟩

variable (tolower : UInt8 → UInt8)

def strcasecmpEq (p q : List UInt8) : Bool := decide (p.map tolower = q.map tolower)

/-- The search for a number of indices from `i` on. It is `none` where an index is outside, or where
the pointer is NULL. -/
def findTag (tagMap : List (Option (List UInt8))) (p : List UInt8) : Nat → Nat → Option (Option Nat)
  | 0, _ => some none
  | rounds + 1, i =>
      match tagMap[i]? with
      | some (some tag) => if strcasecmpEq tolower p tag then some (some i) else findTag tagMap p rounds (i + 1)
      | _ => none

def putTag (table : TagTable) (p : Option (List UInt8)) : Option (Nat × TagTable) :=
  match p with
  | none => some (0, table)
  | some [] => some (0, table)
  | some p =>
      match findTag tolower table.tagMap p table.nTagMap 1 with
      | none => none
      | some (some i) => some (i, table)
      | some none =>
          let n := table.nTagMap + 1
          if n = MAX_TAG_MAP then some (0, { table with nTagMap := n })
          else if n < table.tagMap.length then some (n, ⟨n, table.tagMap.set n (some p)⟩)
          else none

def getTag (table : TagTable) (ntag : Int) : Option (Option (List UInt8)) :=
  if ntag = 0 ∨ (table.nTagMap : Int) < ntag then some none
  else if 0 ≤ ntag then table.tagMap[ntag.toNat]?
  else none

inductive Call where
  | put (p : Option (List UInt8))
  | get (ntag : Int)

inductive Event where
  | put (p : Option (List UInt8)) (ntag : Nat)
  | get (ntag : Int) (tag : Option (List UInt8))

structure Session where
  table : TagTable
  trace : List Event

def start : Session := ⟨emptyTable, []⟩

def step (session : Session) : Call → Option Session
  | .put p => (putTag tolower session.table p).map fun (ntag, table) => ⟨table, session.trace ++ [.put p ntag]⟩
  | .get ntag => (getTag session.table ntag).map fun tag => ⟨session.table, session.trace ++ [.get ntag tag]⟩

/-! What the calls of a session have to do with each other. -/

def SameTag (p q : Option (List UInt8)) : Prop := p.map (List.map tolower) = q.map (List.map tolower)

def GivesBack : Event → Event → Prop
  | .put p n, .get ntag tag => n ≠ 0 → ntag = n → tag.isSome ∧ SameTag tolower tag p
  | _, _ => True

structure Consistent (trace : List Event) : Prop where
  below : ∀ p n, .put p n ∈ trace → n < MAX_TAG_MAP
  kept : trace.Pairwise (GivesBack tolower)
  same : ∀ p n q m, .put p n ∈ trace → .put q m ∈ trace → SameTag tolower p q → n = m
  different : ∀ p n q m, .put p n ∈ trace → .put q m ∈ trace → n ≠ 0 → n = m → SameTag tolower p q
  /-- A tag that has no number gets none when all of them are given. -/
  full : ∀ before p n after, trace = before ++ .put p n :: after →
    (∀ k, 1 ≤ k → k < MAX_TAG_MAP → ∃ q, .put q k ∈ before) →
    (∀ q m, .put q m ∈ before → SameTag tolower p q → m = 0) → n = 0

def Known (table : TagTable) (p : List UInt8) : Prop :=
  ∃ i tag, 1 ≤ i ∧ i ≤ table.nTagMap ∧ table.tagMap[i]? = some (some tag) ∧ strcasecmpEq tolower p tag = true

/-- The call leaves the table inside: no tag is new after the counter has reached the end. -/
def Fine (session : Session) : Call → Prop
  | .put p => ∀ c s, p = some (c :: s) → Known tolower session.table (c :: s) ∨ session.table.nTagMap < MAX_TAG_MAP
  | .get ntag => 0 ≤ ntag ∧ (ntag = MAX_TAG_MAP → session.table.nTagMap < MAX_TAG_MAP)

end KcnTools.Tags

/-!
Sessions with the table of tags: the tags that have numbers, and what each call does to them.
-/

namespace KcnTools.Tags

open Run

variable {tolower : UInt8 → UInt8}

theorem strcasecmpEq_iff {p q : List UInt8} : strcasecmpEq tolower p q = true ↔ SameTag tolower (some p) (some q) := by
  rw [strcasecmpEq, decide_eq_true_eq, SameTag, Option.map_some, Option.map_some, Option.some.injEq]

variable (tolower) in
/-- The tags that have numbers, from 1 on. The counter may be one too high when all are given. -/
structure Holds (table : TagTable) (tags : List (List UInt8)) : Prop where
  length : table.tagMap.length = MAX_TAG_MAP
  entry : ∀ (k : Nat) tag, tags[k]? = some tag → table.tagMap[k + 1]? = some (some tag)
  room : tags.length < MAX_TAG_MAP
  count : table.nTagMap = tags.length ∨ tags.length + 1 = MAX_TAG_MAP ∧ table.nTagMap = MAX_TAG_MAP
  distinct : tags.Pairwise fun p q => ¬ SameTag tolower (some p) (some q)
  filled : ∀ tag ∈ tags, tag ≠ []

section Search

variable {table : TagTable} {tags : List (List UInt8)} {p : List UInt8}

theorem findTag_tags (holds : Holds tolower table tags) {rounds j : Nat} (inside : j + rounds ≤ tags.length) :
    (∃ (k : Nat) (tag : List UInt8), tags[k]? = some tag ∧ strcasecmpEq tolower p tag = true ∧
        ∀ more, findTag tolower table.tagMap p (rounds + more) (j + 1) = some (some (k + 1))) ∨
      ((∀ (k : Nat) tag, j ≤ k → k < j + rounds → tags[k]? = some tag → strcasecmpEq tolower p tag = false) ∧
        ∀ more, findTag tolower table.tagMap p (rounds + more) (j + 1) =
          findTag tolower table.tagMap p more (j + rounds + 1)) := by
  induction rounds generalizing j with
  | zero => exact .inr ⟨fun k tag after before => absurd after (by omega), fun more => by rw [Nat.zero_add, Nat.add_zero]⟩
  | succ rounds ih =>
      have here := List.getElem?_eq_getElem (by omega : j < tags.length)
      have first : ∀ more, findTag tolower table.tagMap p (rounds + 1 + more) (j + 1) =
          if strcasecmpEq tolower p tags[j] then some (some (j + 1))
          else findTag tolower table.tagMap p (rounds + more) (j + 1 + 1) := by
        intro more
        rw [Nat.add_right_comm, findTag, holds.entry j _ here]
      cases same : strcasecmpEq tolower p tags[j] with
      | true => exact .inl ⟨j, _, here, same, fun more => by rw [first, if_pos same]⟩
      | false =>
          rcases @ih (j + 1) (by omega) with ⟨k, tag, there, equal, found⟩ | ⟨others, rest⟩
          · exact .inl ⟨k, tag, there, equal, fun more => by rw [first, same, ← found]; rfl⟩
          · refine .inr ⟨fun k tag after before there => ?_, fun more => ?_⟩
            · rcases Nat.lt_or_eq_of_le after with later | rfl
              · exact others k tag later (by omega) there
              · rw [here, Option.some.injEq] at there
                exact there ▸ same
            · rw [first, same, ← Nat.add_assoc j rounds 1, Nat.add_right_comm j rounds 1, ← rest]
              rfl

/-- What the search returns: the number of the tag, or that there is none where the counter is right -/
theorem findTag_spec (holds : Holds tolower table tags) :
    (∃ (k : Nat) (tag : List UInt8), tags[k]? = some tag ∧ strcasecmpEq tolower p tag = true ∧
        findTag tolower table.tagMap p table.nTagMap 1 = some (some (k + 1))) ∨
      (∀ tag ∈ tags, strcasecmpEq tolower p tag = false) ∧
        findTag tolower table.tagMap p table.nTagMap 1 =
          if table.nTagMap < MAX_TAG_MAP then some none else none := by
  have search := @findTag_tags tolower table tags p holds tags.length 0 (Nat.le_of_eq (Nat.zero_add _))
  have room := holds.room
  obtain ⟨more, counter, small⟩ : ∃ more, table.nTagMap = tags.length + more ∧
      (table.nTagMap < MAX_TAG_MAP ∧ more = 0 ∨ ¬ table.nTagMap < MAX_TAG_MAP ∧ more = 1) := by
    rcases holds.count with equal | ⟨full, high⟩
    · exact ⟨0, equal, .inl ⟨equal ▸ room, rfl⟩⟩
    · exact ⟨1, by omega, .inr ⟨by omega, rfl⟩⟩
  rw [Nat.zero_add] at search
  rcases search with ⟨k, tag, there, equal, found⟩ | ⟨others, rest⟩
  · exact .inl ⟨k, tag, there, equal, by rw [counter]; exact found more⟩
  · refine .inr ⟨fun tag member => ?_, ?_⟩
    · obtain ⟨k, there⟩ := List.getElem?_of_mem member
      exact others k tag (Nat.zero_le k) (by have := (List.getElem?_eq_some_iff.mp there).1; omega) there
    · rcases small with ⟨low, rfl⟩ | ⟨high, rfl⟩
      · rw [if_pos low, counter]
        exact rest 0
      · have outside : table.tagMap[tags.length + 1]? = none :=
          List.getElem?_eq_none (by rw [holds.length]; omega)
        rw [if_neg high, counter]
        refine (rest 1).trans ?_
        rw [Nat.zero_add, findTag, outside]

theorem known_iff (holds : Holds tolower table tags) :
    Known tolower table p ↔ ∃ tag ∈ tags, strcasecmpEq tolower p tag = true := by
  have room := holds.room
  constructor
  · rintro ⟨i, tag, positive, small, here, same⟩
    have inside := (List.getElem?_eq_some_iff.mp here).1
    rw [holds.length] at inside
    obtain ⟨k, rfl⟩ := Nat.exists_eq_add_of_le' positive
    have bound : k < tags.length := by
      rcases holds.count with equal | ⟨full, _⟩
      · omega
      · omega
    have there := List.getElem?_eq_getElem bound
    rw [holds.entry k _ there, Option.some.injEq, Option.some.injEq] at here
    exact ⟨_, List.mem_of_getElem? there, here ▸ same⟩
  · rintro ⟨tag, member, same⟩
    obtain ⟨k, there⟩ := List.getElem?_of_mem member
    have bound := (List.getElem?_eq_some_iff.mp there).1
    refine ⟨k + 1, tag, Nat.succ_pos k, ?_, holds.entry k tag there, same⟩
    rcases holds.count with equal | ⟨full, high⟩
    · omega
    · omega

end Search

/-! One call. -/

section Calls

variable {table : TagTable} {tags : List (List UInt8)}

theorem holds_empty : Holds tolower emptyTable [] where
  length := List.length_replicate
  entry := fun k tag here => absurd here (by simp)
  room := by decide
  count := .inl rfl
  distinct := .nil
  filled := fun tag member => absurd member List.not_mem_nil

theorem Holds.concat (holds : Holds tolower table tags) {p : List UInt8} (new : ∀ tag ∈ tags, strcasecmpEq tolower p tag = false)
    (filled : p ≠ []) (room : tags.length + 1 < MAX_TAG_MAP) :
    Holds tolower ⟨tags.length + 1, table.tagMap.set (tags.length + 1) (some p)⟩ (tags ++ [p]) where
  length := by rw [List.length_set, holds.length]
  entry := by
    intro k tag here
    dsimp only
    rcases Nat.lt_trichotomy k tags.length with inside | rfl | outside
    · rw [List.getElem?_append_left inside] at here
      rw [List.getElem?_set_ne (by omega), holds.entry k tag here]
    · rw [List.getElem?_concat_length, Option.some.injEq] at here
      rw [List.getElem?_set_self (by rw [holds.length]; exact room), here]
    · have := (List.getElem?_eq_some_iff.mp here).1
      rw [List.length_append, List.length_singleton] at this
      omega
  room := by rw [List.length_append, List.length_singleton]; exact room
  count := .inl (by rw [List.length_append, List.length_singleton])
  distinct := by
    rw [List.pairwise_append]
    refine ⟨holds.distinct, List.pairwise_singleton _ _, fun tag member q last same => ?_⟩
    rw [List.mem_singleton.mp last] at same
    exact absurd (strcasecmpEq_iff.mpr same.symm) (by rw [new tag member]; exact Bool.false_ne_true)
  filled := by
    intro tag member
    rw [List.mem_append, List.mem_singleton] at member
    rcases member with before | rfl
    · exact holds.filled tag before
    · exact filled

theorem putTag_spec (holds : Holds tolower table tags) {p : List UInt8} (filled : p ≠ []) :
    (∃ (k : Nat) (tag : List UInt8), tags[k]? = some tag ∧ strcasecmpEq tolower p tag = true ∧
        putTag tolower table (some p) = some (k + 1, table)) ∨
      (∀ tag ∈ tags, strcasecmpEq tolower p tag = false) ∧
        (tags.length + 1 < MAX_TAG_MAP ∧ table.nTagMap < MAX_TAG_MAP ∧
            putTag tolower table (some p) =
              some (tags.length + 1, ⟨tags.length + 1, table.tagMap.set (tags.length + 1) (some p)⟩) ∨
          tags.length + 1 = MAX_TAG_MAP ∧ table.nTagMap < MAX_TAG_MAP ∧
            putTag tolower table (some p) = some (0, { table with nTagMap := MAX_TAG_MAP }) ∨
          ¬ table.nTagMap < MAX_TAG_MAP ∧ putTag tolower table (some p) = none) := by
  obtain ⟨c, s, rfl⟩ := List.exists_cons_of_ne_nil filled
  have room := holds.room
  rcases @findTag_spec tolower table tags (c :: s) holds with ⟨k, tag, there, same, found⟩ | ⟨others, found⟩
  · exact .inl ⟨k, tag, there, same, by rw [putTag, found]; exact fun equal => absurd equal (by simp)⟩
  · refine .inr ⟨others, ?_⟩
    by_cases low : table.nTagMap < MAX_TAG_MAP
    · have counter : table.nTagMap = tags.length := holds.count.resolve_right fun both => by omega
      rw [if_pos low] at found
      rcases Nat.lt_or_eq_of_le (Nat.succ_le_of_lt room) with more | last
      · refine .inl ⟨more, low, ?_⟩
        rw [putTag, found]
        · dsimp only
          rw [counter, if_neg (Nat.ne_of_lt more), if_pos (by rw [holds.length]; exact more)]
        · exact fun equal => absurd equal (by simp)
      · refine .inr (.inl ⟨last, low, ?_⟩)
        rw [putTag, found]
        · dsimp only
          rw [counter, if_pos last]
          rw [show tags.length + 1 = MAX_TAG_MAP from last]
        · exact fun equal => absurd equal (by simp)
    · rw [if_neg low] at found
      refine .inr (.inr ⟨low, ?_⟩)
      rw [putTag, found]
      exact fun equal => absurd equal (by simp)

theorem getTag_entry (holds : Holds tolower table tags) {k : Nat} {tag : List UInt8} (here : tags[k]? = some tag) :
    getTag table (k + 1 : Nat) = some (some tag) := by
  have inside := (List.getElem?_eq_some_iff.mp here).1
  have counter : tags.length ≤ table.nTagMap := by
    rcases holds.count with equal | ⟨full, high⟩
    · omega
    · omega
  rw [getTag, if_neg (by omega), if_pos (by omega), Int.toNat_natCast, holds.entry k tag here]

theorem getTag_isSome (holds : Holds tolower table tags) (ntag : Int) :
    (getTag table ntag).isSome ↔ 0 ≤ ntag ∧ (ntag = MAX_TAG_MAP → table.nTagMap < MAX_TAG_MAP) := by
  have room := holds.room
  have counter : table.nTagMap ≤ MAX_TAG_MAP := by
    rcases holds.count with equal | ⟨full, high⟩
    · omega
    · omega
  rw [getTag]
  split
  next free =>
    refine ⟨fun _ => ⟨by omega, fun equal => by omega⟩, fun _ => rfl⟩
  next used =>
    split
    next positive =>
      rw [isSome_getElem?, holds.length]
      omega
    next negative => exact ⟨fun some => absurd some Bool.false_ne_true, fun both => absurd both.1 negative⟩

end Calls

/-! Sessions. -/

section Sessions

variable {table : TagTable} {tags : List (List UInt8)}

variable (tolower) in
/-- The number that a call has returned is the one of the tag. A tag without a number is empty, or
all have been given. -/
def Explained (tags : List (List UInt8)) : Event → Prop
  | .put p n =>
      (n = 0 ∧ (p = none ∨ p = some [] ∨
        tags.length + 1 = MAX_TAG_MAP ∧ ∃ q, q ≠ [] ∧ p = some q ∧ ∀ tag ∈ tags, strcasecmpEq tolower q tag = false)) ∨
      ∃ (k : Nat) (tag q : List UInt8), n = k + 1 ∧ tags[k]? = some tag ∧ p = some q ∧ strcasecmpEq tolower q tag = true
  | .get _ _ => True

variable (tolower) in
structure Sound (tags : List (List UInt8)) (session : Session) : Prop where
  holds : Holds tolower session.table tags
  explained : ∀ event ∈ session.trace, Explained tolower tags event
  kept : session.trace.Pairwise (GivesBack tolower)

theorem Explained.concat {event : Event} (explained : Explained tolower tags event) (more : tags.length + 1 < MAX_TAG_MAP)
    (p : List UInt8) : Explained tolower (tags ++ [p]) event := by
  cases event with
  | get => trivial
  | put q n =>
      rcases explained with ⟨zero, null | empty | ⟨full, -⟩⟩ | ⟨k, tag, q', number, here, text, same⟩
      · exact .inl ⟨zero, .inl null⟩
      · exact .inl ⟨zero, .inr (.inl empty)⟩
      · omega
      · refine .inr ⟨k, tag, q', number, ?_, text, same⟩
        rw [List.getElem?_append_left (List.getElem?_eq_some_iff.mp here).1, here]

theorem Sound.event {session : Session} (sound : Sound tolower tags session) {table : TagTable} (event : Event)
    (holds : Holds tolower table tags) (explained : Explained tolower tags event)
    (back : ∀ earlier ∈ session.trace, GivesBack tolower earlier event) :
    Sound tolower tags ⟨table, session.trace ++ [event]⟩ where
  holds := holds
  explained := by
    intro other member
    rw [List.mem_append, List.mem_singleton] at member
    rcases member with before | rfl
    · exact sound.explained other before
    · exact explained
  kept := by
    rw [List.pairwise_append]
    refine ⟨sound.kept, List.pairwise_singleton _ _, fun earlier member other last => ?_⟩
    rw [List.mem_singleton.mp last]
    exact back earlier member

theorem givesBack_put (event : Event) (p : Option (List UInt8)) (n : Nat) : GivesBack tolower event (.put p n) := by
  cases event with
  | put => trivial
  | get => trivial

theorem step_sound {session : Session} (sound : Sound tolower tags session) (call : Call) :
    (Fine tolower session call ∧ ∃ next more, step tolower session call = some next ∧ Sound tolower (tags ++ more) next) ∨
      ¬ Fine tolower session call ∧ step tolower session call = none := by
  have holds := sound.holds
  have same : tags ++ [] = tags := List.append_nil tags
  cases call with
  | put p =>
      have nothing : p = none ∨ p = some [] → ∃ next more, step tolower session (.put p) = some next ∧
          Sound tolower (tags ++ more) next := by
        rintro (rfl | rfl)
        · refine ⟨_, [], rfl, ?_⟩
          rw [same]
          exact sound.event (.put none 0) holds (Or.inl ⟨rfl, .inl rfl⟩) fun e _ => givesBack_put e _ _
        · refine ⟨_, [], rfl, ?_⟩
          rw [same]
          exact sound.event (.put (some []) 0) holds (Or.inl ⟨rfl, .inr (.inl rfl)⟩) fun e _ => givesBack_put e _ _
      match p with
      | none => exact .inl ⟨fun c s equal => absurd equal (by simp), nothing (.inl rfl)⟩
      | some [] => exact .inl ⟨fun c s equal => absurd equal (by simp), nothing (.inr rfl)⟩
      | some (c :: s) =>
          have known := @known_iff tolower session.table tags (c :: s) holds
          rcases putTag_spec holds (List.cons_ne_nil c s) with
            ⟨k, tag, here, equal, done⟩ | ⟨others, ⟨more, low, done⟩ | ⟨last, low, done⟩ | ⟨high, done⟩⟩
          · refine .inl ⟨fun _ _ text => .inl ?_, _, [], by rw [step, done]; rfl, ?_⟩
            · rw [← Option.some.inj text]
              exact known.mpr ⟨tag, List.mem_of_getElem? here, equal⟩
            · rw [same]
              exact sound.event (.put (some (c :: s)) (k + 1)) holds (Or.inr ⟨k, tag, _, rfl, here, rfl, equal⟩)
                fun e _ => givesBack_put e _ _
          · refine .inl ⟨fun _ _ _ => .inr low, _, [c :: s], by rw [step, done]; rfl, ?_⟩
            have wider : Sound tolower (tags ++ [c :: s])
                ⟨⟨tags.length + 1, session.table.tagMap.set (tags.length + 1) (some (c :: s))⟩, session.trace⟩ :=
              ⟨holds.concat others (List.cons_ne_nil c s) more,
                fun event member => (sound.explained event member).concat more _, sound.kept⟩
            refine wider.event (.put (some (c :: s)) (tags.length + 1)) wider.holds
              (Or.inr ⟨tags.length, c :: s, c :: s, rfl, ?_, rfl, ?_⟩) fun e _ => givesBack_put e _ _
            · exact List.getElem?_concat_length
            · exact strcasecmpEq_iff.mpr rfl
          · refine .inl ⟨fun _ _ _ => .inr low, _, [], by rw [step, done]; rfl, ?_⟩
            have full : Holds tolower { session.table with nTagMap := MAX_TAG_MAP } tags :=
              ⟨holds.length, holds.entry, holds.room, .inr ⟨last, rfl⟩, holds.distinct, holds.filled⟩
            rw [same]
            exact sound.event (.put (some (c :: s)) 0) full
              (Or.inl ⟨rfl, .inr (.inr ⟨last, c :: s, List.cons_ne_nil c s, rfl, others⟩)⟩) fun e _ => givesBack_put e _ _
          · refine .inr ⟨fun fine => ?_, by rw [step, done]; rfl⟩
            rcases fine c s rfl with there | low
            · obtain ⟨tag, member, equal⟩ := known.mp there
              rw [others tag member] at equal
              exact Bool.false_ne_true equal
            · exact high low
  | get ntag =>
      have inside := getTag_isSome holds ntag
      cases found : getTag session.table ntag with
      | none =>
          rw [found] at inside
          exact .inr ⟨fun fine => Bool.false_ne_true (inside.mpr fine), by rw [step, found]; rfl⟩
      | some tag =>
          rw [found] at inside
          refine .inl ⟨inside.mp rfl, _, [], by rw [step, found]; rfl, ?_⟩
          rw [same]
          refine sound.event (.get ntag tag) holds trivial fun earlier member => ?_
          cases earlier with
          | get => trivial
          | put p n =>
              intro some number
              rcases sound.explained _ member with ⟨zero, -⟩ | ⟨k, other, q, rfl, here, rfl, equal⟩
              · exact absurd zero some
              · rw [number, getTag_entry holds here, Option.some.injEq] at found
                rw [← found]
                exact ⟨rfl, (strcasecmpEq_iff.mp equal).symm⟩

theorem explained_same (holds : Holds tolower table tags) {p q : Option (List UInt8)} {n m : Nat}
    (first : Explained tolower tags (.put p n)) (second : Explained tolower tags (.put q m)) (same : SameTag tolower p q) :
    n = m := by
  have empty : ∀ {k : Nat} {tag r : List UInt8}, tags[k]? = some tag → strcasecmpEq tolower r tag = true → r ≠ [] := by
    rintro k tag r here equal rfl
    have nil := (of_decide_eq_true equal).symm
    exact holds.filled tag (List.mem_of_getElem? here) (List.map_eq_nil_iff.mp nil)
  have chain : ∀ {r tag : List UInt8}, SameTag tolower (some r) q → ∀ other, q = some other →
      (strcasecmpEq tolower r tag = true ↔ strcasecmpEq tolower other tag = true) := by
    rintro r tag same other rfl
    rw [strcasecmpEq_iff, strcasecmpEq_iff]
    exact ⟨fun left => same.symm.trans left, fun right => same.trans right⟩
  rcases first with ⟨rfl, null | text | ⟨-, r, rFilled, text, others⟩⟩ | ⟨k, tag, r, rfl, here, text, equal⟩
  · subst null
    rcases second with ⟨rfl, -⟩ | ⟨l, other, r, -, -, rfl, -⟩
    · rfl
    · exact absurd same.symm (by simp)
  · subst text
    rcases second with ⟨rfl, -⟩ | ⟨l, other, r, -, there, rfl, equal⟩
    · rfl
    · have nil : r.map tolower = [] := (Option.some.inj same).symm
      exact absurd (List.map_eq_nil_iff.mp nil) (empty there equal)
  · subst text
    rcases second with ⟨rfl, -⟩ | ⟨l, other, r', -, there, rfl, equal⟩
    · rfl
    · rw [← chain same r' rfl, others other (List.mem_of_getElem? there)] at equal
      exact absurd equal Bool.false_ne_true
  · subst text
    rcases second with ⟨rfl, null | text | ⟨-, r', -, rfl, others⟩⟩ | ⟨l, other, r', rfl, there, rfl, equal'⟩
    · subst null
      exact absurd same (by simp [SameTag])
    · subst text
      have nil : r.map tolower = [] := Option.some.inj same
      exact absurd (List.map_eq_nil_iff.mp nil) (empty here equal)
    · rw [chain same r' rfl, others tag (List.mem_of_getElem? here)] at equal
      exact absurd equal Bool.false_ne_true
    · rw [← chain same r' rfl] at equal'
      have both : SameTag tolower (some tag) (some other) :=
        (strcasecmpEq_iff.mp equal).symm.trans (strcasecmpEq_iff.mp equal')
      obtain ⟨kInside, rfl⟩ := List.getElem?_eq_some_iff.mp here
      obtain ⟨lInside, rfl⟩ := List.getElem?_eq_some_iff.mp there
      rcases Nat.lt_trichotomy k l with less | rfl | more
      · exact absurd both (List.pairwise_iff_getElem.mp holds.distinct k l kInside lInside less)
      · rfl
      · exact absurd both.symm (List.pairwise_iff_getElem.mp holds.distinct l k lInside kInside more)

theorem Sound.consistent {session : Session} (sound : Sound tolower tags session) : Consistent tolower session.trace := by
  have room := sound.holds.room
  have below : ∀ p n, .put p n ∈ session.trace → n < MAX_TAG_MAP := by
    intro p n member
    rcases sound.explained _ member with ⟨rfl, -⟩ | ⟨k, tag, q, rfl, here, -⟩
    · exact Nat.lt_of_le_of_lt (Nat.zero_le _) room
    · exact Nat.lt_of_le_of_lt (List.getElem?_eq_some_iff.mp here).1 room
  have different : ∀ p n q m, .put p n ∈ session.trace → .put q m ∈ session.trace → n ≠ 0 → n = m →
      SameTag tolower p q := by
    intro p n q m first second some equal
    rcases sound.explained _ first with ⟨zero, -⟩ | ⟨k, tag, r, rfl, here, rfl, left⟩
    · exact absurd zero some
    · rcases sound.explained _ second with ⟨zero, -⟩ | ⟨l, other, r', number, there, rfl, right⟩
      · omega
      · obtain rfl : k = l := by omega
        rw [here, Option.some.injEq] at there
        rw [← there] at right
        exact (strcasecmpEq_iff.mp left).trans (strcasecmpEq_iff.mp right).symm
  refine ⟨below, sound.kept, fun p n q m first second same =>
    explained_same sound.holds (sound.explained _ first) (sound.explained _ second) same, different, ?_⟩
  intro before p n after split given new
  by_cases zero : n = 0
  · exact zero
  · have here : Event.put p n ∈ session.trace := by
      rw [split]
      exact List.mem_append_right _ (.head _)
    obtain ⟨q, earlier⟩ := given n (Nat.pos_of_ne_zero zero) (below p n here)
    have there : Event.put q n ∈ session.trace := by
      rw [split]
      exact List.mem_append_left _ earlier
    exact new q n earlier (different p n q n here there zero rfl)

end Sessions

/-- A session keeps the numbers of the tags exactly as long as every call is fine. -/
theorem tags_consistent_iff (tolower : UInt8 → UInt8) (calls : List Call) :
    (∃ final, run (step tolower) start calls = some final ∧ Consistent tolower final.trace) ↔
      Admitted (step tolower) (Fine tolower) start calls := by
  have first : ∃ tags, Sound tolower tags start :=
    ⟨[], holds_empty, fun event member => absurd member List.not_mem_nil, .nil⟩
  constructor
  · rintro ⟨final, reached, -⟩
    refine admitted_of_run (fun session => ∃ tags, Sound tolower tags session) ?_ first reached
    rintro session call next ⟨tags, sound⟩ stepped
    rcases step_sound sound call with ⟨fine, other, more, done, kept⟩ | ⟨-, outside⟩
    · obtain rfl : next = other := Option.some.inj (stepped.symm.trans done)
      exact ⟨fine, _, kept⟩
    · rw [outside] at stepped
      exact absurd stepped (by simp)
  · intro admitted
    obtain ⟨final, reached, tags, sound⟩ := run_invariant (fun session => ∃ tags, Sound tolower tags session)
      (fun session call held fine => by
        obtain ⟨tags, sound⟩ := held
        rcases step_sound sound call with ⟨-, next, more, done, kept⟩ | ⟨unfit, -⟩
        · exact ⟨next, done, _, kept⟩
        · exact absurd fine unfit) first admitted
    exact ⟨final, reached, sound.consistent⟩

def longTag (k : Nat) : List UInt8 := List.replicate (k + 1) 97

def longTags (m : Nat) : List Call := (List.range m).map fun k => .put (some (longTag k))

theorem longTag_filled (m : Nat) : longTag m ≠ [] := by
  rw [longTag, List.replicate_succ]
  exact List.cons_ne_nil _ _

theorem longTag_new {m count : Nat} (few : count ≤ m) :
    ∀ tag ∈ (List.range count).map longTag, strcasecmpEq id (longTag m) tag = false := by
  intro tag member
  obtain ⟨k, inside, rfl⟩ := List.mem_map.mp member
  have small := List.mem_range.mp inside
  refine decide_eq_false fun same => ?_
  have lengths := congrArg List.length same
  rw [List.map_id, List.map_id, longTag, longTag, List.length_replicate, List.length_replicate] at lengths
  omega

theorem run_longTags {m : Nat} (small : m ≤ MAX_TAG_MAP) :
    ∃ session, run (step id) start (longTags m) = some session ∧ session.table.nTagMap = m ∧
      Holds id session.table ((List.range (min m (MAX_TAG_MAP - 1))).map longTag) := by
  induction m with
  | zero => exact ⟨start, rfl, rfl, holds_empty⟩
  | succ m ih =>
      obtain ⟨session, reached, counter, holds⟩ := ih (Nat.le_of_succ_le small)
      have new := longTag_new (Nat.min_le_left m (MAX_TAG_MAP - 1))
      have parts : longTags (m + 1) = longTags m ++ [.put (some (longTag m))] := by
        rw [longTags, List.range_succ, List.map_append]
        rfl
      have size : MAX_TAG_MAP = 256 := rfl
      have all : min m (MAX_TAG_MAP - 1) = m := by omega
      rw [all] at holds new
      have length : ((List.range m).map longTag).length = m := by rw [List.length_map, List.length_range]
      rw [parts, run_append, reached, Option.bind_some, run_cons, step]
      rcases putTag_spec holds (longTag_filled m) with
        ⟨k, tag, here, same, -⟩ | ⟨others, ⟨more, low, done⟩ | ⟨last, low, done⟩ | ⟨high, done⟩⟩
      · rw [new tag (List.mem_of_getElem? here)] at same
        exact absurd same Bool.false_ne_true
      · have wider := holds.concat others (longTag_filled m) more
        have tags : (List.range m).map longTag ++ [longTag m] = (List.range (m + 1)).map longTag := by
          rw [List.range_succ, List.map_append, List.map_singleton]
        have next : min (m + 1) (MAX_TAG_MAP - 1) = m + 1 := by omega
        rw [tags, length] at wider
        rw [done, next, length]
        exact ⟨_, rfl, rfl, wider⟩
      · have next : min (m + 1) (MAX_TAG_MAP - 1) = m := by omega
        rw [done, next]
        refine ⟨_, rfl, ?_, holds.length, holds.entry, holds.room, .inr ⟨last, rfl⟩, holds.distinct, holds.filled⟩
        dsimp only
        omega
      · omega

/-- The search for the 257th tag reads behind the table. -/
theorem run_longTags_outside :
    ¬ ∀ calls, ∃ final, run (step id) start calls = some final ∧ Consistent id final.trace := by
  intro all
  obtain ⟨final, reached, -⟩ := all (longTags MAX_TAG_MAP ++ [.put (some (longTag MAX_TAG_MAP))])
  obtain ⟨session, full, counter, holds⟩ := run_longTags (Nat.le_refl MAX_TAG_MAP)
  rw [run_append, full, Option.bind_some, run_cons, step] at reached
  rcases putTag_spec holds (longTag_filled MAX_TAG_MAP) with
    ⟨k, tag, here, same, -⟩ | ⟨-, ⟨-, low, -⟩ | ⟨-, low, -⟩ | ⟨-, done⟩⟩
  · rw [longTag_new (Nat.min_le_left _ _) tag (List.mem_of_getElem? here)] at same
    exact Bool.false_ne_true same
  · omega
  · omega
  · rw [done] at reached
    exact absurd reached (by simp)

end KcnTools.Tags
