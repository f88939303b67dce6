import KcnTools.Intl.TranslationTable

/-!
The tables that `add_utf_8` grows: which strings the code points lead to, and how many tables there
are on the way.
-/

namespace KcnTools.Intl

variable {str : Option (List UInt8)}

def EntryShaped : Nat → ConvEntry → Prop
  | 0, entry => ∃ str, entry = .str str
  | count + 1, entry =>
      entry = .str none ∨
        ∃ table, entry = .tbl table ∧ ∀ c, isContinuation c → EntryShaped count (table c)

def storedString : ConvEntry → List UInt8 → Option (List UInt8)
  | .str str, [] => str
  | .tbl table, c :: rest => storedString (table c) rest
  | _, _ => none

def tableCount : ConvEntry → List UInt8 → Nat
  | .tbl table, c :: rest => tableCount (table c) rest + 1
  | _, _ => 0

def sharedTables : List UInt8 → List UInt8 → Nat
  | c :: d :: rest, c' :: d' :: rest' => if c = c' then sharedTables (d :: rest) (d' :: rest') + 1 else 0
  | _, _ => 0

theorem entryShaped_default (count : Nat) : EntryShaped count (.str none) := by
  cases count with
  | zero => exact ⟨none, rfl⟩
  | succ count => exact .inl rfl

theorem newTranslationTable_continuation {c : UInt8} (continues : isContinuation c) :
    newTranslationTable c = .str none := by
  rw [newTranslationTable, if_neg (UInt8.not_lt.mpr continues.1)]

theorem storedString_default (word : List UInt8) : storedString (.str none) word = none := by
  cases word <;> rfl

theorem tableCount_str (word : List UInt8) : tableCount (.str str) word = 0 := by
  cases word <;> rfl

theorem sharedTables_apart {c c' : UInt8} (apart : c ≠ c') (rest rest' : List UInt8) :
    sharedTables (c :: rest) (c' :: rest') = 0 := by
  cases rest with
  | nil => rfl
  | cons d rest =>
      cases rest' with
      | nil => rfl
      | cons d' rest' => rw [sharedTables, if_neg apart]

structure Added (str : Option (List UInt8)) (word : List UInt8) (before after : ConvEntry) : Prop where
  shaped : EntryShaped word.length after
  stored : ∀ other, other.length = word.length → (∀ c ∈ other, isContinuation c) →
    storedString after other =
      if other = word then (storedString before other).or str else storedString before other
  tables : ∀ other, other.length = word.length → (∀ c ∈ other, isContinuation c) → ∀ c,
    tableCount after other = max (tableCount before other) (sharedTables (c :: word) (c :: other))

theorem Added.deeper {d : UInt8} {word : List UInt8} {table : ConvTable} {after : ConvEntry}
    (shaped : ∀ c, isContinuation c → EntryShaped word.length (table c)) (added : Added str word (table d) after) :
    EntryShaped (word.length + 1) (.tbl (updateEntry table d after)) ∧
      ∀ c' other, other.length = word.length → (∀ c ∈ c' :: other, isContinuation c) →
        storedString (.tbl (updateEntry table d after)) (c' :: other) =
          (if c' :: other = d :: word then (storedString (table c') other).or str
            else storedString (table c') other) ∧
        ∀ c, tableCount (.tbl (updateEntry table d after)) (c' :: other) =
          max (tableCount (table c') other + 1) (sharedTables (c :: d :: word) (c :: c' :: other)) := by
  constructor
  · refine .inr ⟨_, rfl, fun c continues => ?_⟩
    rw [updateEntry]
    split
    · exact added.shaped
    · exact shaped c continues
  · intro c' other length continues
    have rest := fun c member => continues c (List.mem_cons_of_mem c' member)
    rw [storedString, tableCount, updateEntry]
    by_cases same : c' = d
    · subst same
      rw [if_pos rfl]
      constructor
      · rw [added.stored other length rest]
        by_cases equal : other = word
        · rw [if_pos equal, if_pos (congrArg _ equal)]
        · rw [if_neg equal, if_neg fun both => equal (List.cons.inj both).2]
      · intro c
        rw [added.tables other length rest c', sharedTables, if_pos rfl]
        omega
    · rw [if_neg same]
      constructor
      · rw [if_neg fun both => same (List.cons.inj both).1]
      · intro c
        rw [sharedTables, if_pos rfl, sharedTables_apart (Ne.symm same)]
        omega

theorem addEntry_spec (str : Option (List UInt8)) {word : List UInt8} (continues : ∀ c ∈ word, isContinuation c)
    {before : ConvEntry} (shaped : EntryShaped word.length before) :
    ∃ after, addEntry str word before = some after ∧ Added str word before after := by
  induction word generalizing before with
  | nil =>
      obtain ⟨old, rfl⟩ := shaped
      have alone : ∀ other : List UInt8, other.length = ([] : List UInt8).length → other = [] :=
        fun other length => List.eq_nil_of_length_eq_zero length
      cases old with
      | none =>
          refine ⟨.str str, rfl, ⟨⟨str, rfl⟩, ?_, ?_⟩⟩
          · intro other length _
            rw [alone other length, if_pos rfl, storedString_default]
            rfl
          · intro other length _ c
            rw [alone other length]
            rfl
      | some old =>
          refine ⟨.str (some old), rfl, ⟨⟨some old, rfl⟩, ?_, ?_⟩⟩
          · intro other length _
            rw [alone other length, if_pos rfl]
            rfl
          · intro other length _ c
            rw [alone other length]
            rfl
  | cons d word ih =>
      have later := fun c member => continues c (List.mem_cons_of_mem d member)
      have first := continues d List.mem_cons_self
      rcases shaped with rfl | ⟨table, rfl, shaped⟩
      · have fresh : ∀ c, isContinuation c → EntryShaped word.length (newTranslationTable c) := by
          intro c continues
          rw [newTranslationTable_continuation continues]
          exact entryShaped_default _
        obtain ⟨after, ran, added⟩ := ih later (fresh d first)
        obtain ⟨shaped, words⟩ := added.deeper fresh
        refine ⟨_, by rw [addEntry, ran]; rfl, shaped, ?_, ?_⟩
        · intro other length continues
          cases other with
          | nil => cases length
          | cons c' other =>
              rw [(words c' other (Nat.succ.inj length) continues).1,
                newTranslationTable_continuation (continues c' List.mem_cons_self), storedString_default]
              rfl
        · intro other length continues c
          cases other with
          | nil => cases length
          | cons c' other =>
              rw [(words c' other (Nat.succ.inj length) continues).2 c,
                newTranslationTable_continuation (continues c' List.mem_cons_self), tableCount_str, tableCount_str,
                sharedTables, if_pos rfl]
              omega
      · obtain ⟨after, ran, added⟩ := ih later (shaped d first)
        obtain ⟨shaped', words⟩ := added.deeper shaped
        refine ⟨_, by rw [addEntry, ran]; rfl, shaped', ?_, ?_⟩
        · intro other length continues
          cases other with
          | nil => cases length
          | cons c' other => exact (words c' other (Nat.succ.inj length) continues).1
        · intro other length continues c
          cases other with
          | nil => cases length
          | cons c' other => exact (words c' other (Nat.succ.inj length) continues).2 c

/-! The whole table. -/

def TableShaped (table : ConvTable) : Prop :=
  ∀ c, 128 ≤ c → if following c = 0 then table c = .str none else EntryShaped (following c) (table c)

def codeString (table : ConvTable) (u : Nat) : Option (List UInt8) :=
  match encodeUtf8 u with
  | [] => none
  | c :: rest => storedString (table c) rest

def codeTables (table : ConvTable) (u : Nat) : Nat :=
  match encodeUtf8 u with
  | [] => 0
  | c :: rest => tableCount (table c) rest

theorem tableShaped_new : TableShaped newTranslationTable := by
  intro c high
  have default : newTranslationTable c = .str none := by
    rw [newTranslationTable, if_neg (UInt8.not_lt.mpr high)]
  split
  · exact default
  · rw [default]
    exact entryShaped_default _

theorem Encoded.high {u : Nat} {lead : UInt8} {count : Nat} (encoded : Encoded u lead count) : 128 ≤ lead := by
  have follows := encoded.follows
  have several := encoded.several
  rw [following_toNat] at follows
  rw [UInt8.le_iff_toNat_le]
  show 128 ≤ lead.toNat
  by_contra low
  rw [if_pos (by omega)] at follows
  omega

theorem addUtf8_spec {table : ConvTable} (shaped : TableShaped table) {u : Nat} (encodable : Encodable u)
    (str : Option (List UInt8)) :
    ∃ after, addUtf8 table u str = some after ∧ TableShaped after ∧
      ∀ v, Encodable v →
        codeString after v = (codeString table v).or (if u = v then str else none) ∧
        codeTables after v = max (codeTables table v) (sharedTables (encodeUtf8 u) (encodeUtf8 v)) := by
  obtain ⟨lead, count, encoded⟩ := encodeUtf8_spec encodable
  have tail := utf8Tail_length count u
  have here := shaped lead encoded.high
  rw [encoded.follows, if_neg (Nat.ne_of_gt encoded.several), ← tail] at here
  obtain ⟨entry, ran, added⟩ := addEntry_spec str (fun c member => isContinuation_tail member) here
  refine ⟨updateEntry table lead entry, ?_, ?_, ?_⟩
  · rw [addUtf8, encoded.bytes]
    dsimp only
    rw [ran]
    rfl
  · intro c high
    rw [updateEntry]
    by_cases same : c = lead
    · subst same
      have after := added.shaped
      rw [tail] at after
      rw [if_pos rfl, encoded.follows, if_neg (Nat.ne_of_gt encoded.several)]
      exact after
    · rw [if_neg same]
      exact shaped c high
  · intro v encodable'
    obtain ⟨lead', count', encoded'⟩ := encodeUtf8_spec encodable'
    rw [codeString, codeString, codeTables, codeTables, encoded.bytes, encoded'.bytes]
    dsimp only
    rw [updateEntry]
    by_cases same : lead' = lead
    · subst same
      have counts : count' = count := encoded'.follows.symm.trans encoded.follows
      subst counts
      have length := (utf8Tail_length count' v).trans tail.symm
      have continues := fun c (member : c ∈ utf8Tail count' v) => isContinuation_tail member
      rw [if_pos rfl, added.stored _ length continues, added.tables _ length continues lead']
      refine ⟨?_, rfl⟩
      by_cases equal : u = v
      · subst equal
        rw [if_pos rfl, if_pos rfl]
      · rw [if_neg equal, if_neg fun tails => equal (encoded.inj encoded' tails.symm), Option.or_none]
    · rw [if_neg same, sharedTables_apart (Ne.symm same), if_neg, Option.or_none]
      · exact ⟨rfl, (Nat.max_zero _).symm⟩
      · rintro rfl
        have both := encoded.bytes.symm.trans encoded'.bytes
        exact same (List.cons.inj both).1.symm

def firstString (calls : List (Nat × Option (List UInt8))) (v : Nat) : Option (List UInt8) :=
  calls.findSome? fun call => if call.1 = v then call.2 else none

def sharedWithAny (calls : List (Nat × Option (List UInt8))) (v : Nat) : Nat :=
  calls.foldr (fun call most => max (sharedTables (encodeUtf8 call.1) (encodeUtf8 v)) most) 0

theorem addAll_spec {table : ConvTable} (shaped : TableShaped table) {calls : List (Nat × Option (List UInt8))}
    (encodable : ∀ call ∈ calls, Encodable call.1) :
    ∃ after, addAll table calls = some after ∧ TableShaped after ∧
      ∀ v, Encodable v →
        codeString after v = (codeString table v).or (firstString calls v) ∧
        codeTables after v = max (codeTables table v) (sharedWithAny calls v) := by
  induction calls generalizing table with
  | nil => exact ⟨table, rfl, shaped, fun v _ => ⟨(Option.or_none).symm, (Nat.max_zero _).symm⟩⟩
  | cons call calls ih =>
      obtain ⟨next, added, shaped', strings⟩ := addUtf8_spec shaped (encodable call List.mem_cons_self) call.2
      obtain ⟨after, rest, shaped'', strings'⟩ :=
        ih shaped' fun other member => encodable other (List.mem_cons_of_mem call member)
      refine ⟨after, ?_, shaped'', fun v encodable' => ?_⟩
      · rw [addAll, List.foldlM_cons, added]
        exact rest
      · obtain ⟨string, tables⟩ := strings v encodable'
        obtain ⟨string', tables'⟩ := strings' v encodable'
        constructor
        · rw [string', string, Option.or_assoc, firstString, firstString, List.findSome?_cons]
          congr 1
          cases (if call.1 = v then call.2 else none) <;> rfl
        · rw [tables', tables, Nat.max_assoc]
          rfl

theorem codeString_new (u : Nat) (encodable : Encodable u) :
    codeString newTranslationTable u = none ∧ codeTables newTranslationTable u = 0 := by
  obtain ⟨lead, count, encoded⟩ := encodeUtf8_spec encodable
  have default : newTranslationTable lead = .str none := by
    rw [newTranslationTable, if_neg (UInt8.not_lt.mpr encoded.high)]
  rw [codeString, codeTables, encoded.bytes]
  dsimp only
  rw [default]
  exact ⟨storedString_default _, tableCount_str _⟩

end KcnTools.Intl
