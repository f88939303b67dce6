import Mathlib.Data.List.Forall2
import KcnTools.Lib.Run
import KcnTools.W3m.StrSpec

/-! Sequences of string operations, against the same operations on lists. -/

namespace KcnTools.W3m

inductive NewOp where
  | new
  | newSize (n : Nat)
  | newCharp (p : Option CString)
  | newMCharp (ps : List CString)
  | newCharpN (p : Option (List UInt8)) (n : Nat)

inductive DeriveOp where
  | dup
  | substr (beg len : Nat)
  | alignLeft (width : Nat)
  | alignRight (width : Nat)
  | alignCenter (width : Nat)

inductive ChangeOp where
  | copyCharp (y : Option CString)
  | copyCharpN (y : Option (List UInt8)) (n : Nat)
  | catCharpN (y : Option (List UInt8)) (n : Nat)
  | catCharp (y : Option CString)
  | catMCharp (ys : List CString)
  | catChar (c : UInt8)
  | insertChar (pos : Nat) (c : UInt8)
  | insertCharp (pos : Nat) (p : CString)
  | delete (pos n : Nat)
  | truncate (pos : Nat)
  | shrink (n : Nat)
  | chop
  | removefirstspaces
  | removetrailingspaces

inductive Op where
  | new (op : NewOp)
  | derive (i : Nat) (op : DeriveOp)
  | change (i : Nat) (op : ChangeOp)
  | copy (i j : Nat)
  | cat (i j : Nat)

def NewOp.run (junk : Nat → UInt8) : NewOp → Option Str
  | .new => strnew junk
  | .newSize n => strnewSize junk n
  | .newCharp p => strnewCharp junk p
  | .newMCharp ps => strnewMCharp junk ps
  | .newCharpN p n => strnewCharpN junk p n

def NewOp.text : NewOp → List UInt8
  | .new | .newSize _ | .newCharp none | .newCharpN none _ => []
  | .newCharp (some p) => p.bytes
  | .newMCharp ps => ps.flatMap (·.bytes)
  | .newCharpN (some p) n => p.take n

def NewOp.InRange (op : NewOp) : Prop :=
  op.text.length ≤ lengthMax ∧
    match op with
    | .newCharpN (some p) n => n ≤ p.length
    | _ => True

def DeriveOp.run (junk : Nat → UInt8) (s : Str) : DeriveOp → Option Str
  | .dup => strdup junk s
  | .substr beg len => strsubstr junk s beg len
  | .alignLeft width => stralignLeft junk s width
  | .alignRight width => stralignRight junk s width
  | .alignCenter width => stralignCenter junk s width

def DeriveOp.text (bytes : List UInt8) : DeriveOp → List UInt8
  | .dup => bytes
  | .substr beg len => (bytes.drop beg).take len
  | .alignLeft width => aligned bytes width 0
  | .alignRight width => aligned bytes width (width - bytes.length)
  | .alignCenter width => aligned bytes width ((width - bytes.length) / 2)

def DeriveOp.InRange : DeriveOp → Prop
  | .dup | .substr _ _ => True
  | .alignLeft width | .alignRight width | .alignCenter width => width ≤ lengthMax

def ChangeOp.run (junk : Nat → UInt8) (s : Str) : ChangeOp → Option Str
  | .copyCharp y => strcopyCharp junk s y
  | .copyCharpN y n => strcopyCharpN junk s y n
  | .catCharpN y n => strcatCharpN junk s y n
  | .catCharp y => strcatCharp junk s y
  | .catMCharp ys => strcatMCharp junk s ys
  | .catChar c => strcatChar junk s c
  | .insertChar pos c => strinsertChar junk s pos c
  | .insertCharp pos p => strinsertCharp junk s pos p.bytes
  | .delete pos n => strdelete s pos n
  | .truncate pos => strtruncate s pos
  | .shrink n => strshrink s n
  | .chop => strchop s
  | .removefirstspaces => strremovefirstspaces s
  | .removetrailingspaces => strremovetrailingspaces s

def ChangeOp.text (bytes : List UInt8) : ChangeOp → List UInt8
  | .copyCharp none | .copyCharpN none _ => []
  | .copyCharp (some y) => y.bytes
  | .copyCharpN (some y) n => y.take n
  | .catCharpN none _ | .catCharp none => bytes
  | .catCharpN (some y) n => bytes ++ y.take n
  | .catCharp (some y) => bytes ++ y.bytes
  | .catMCharp ys => bytes ++ ys.flatMap (·.bytes)
  | .catChar c => bytes ++ [c]
  | .insertChar pos c => inserted bytes pos [c]
  | .insertCharp pos p => inserted bytes pos p.bytes
  | .delete pos n => bytes.take pos ++ bytes.drop (pos + n)
  | .truncate pos => bytes.take pos
  | .shrink n => bytes.take (bytes.length - n)
  | .chop => bytes.rdropWhile isEol
  | .removefirstspaces => bytes.dropWhile isSpace
  | .removetrailingspaces => bytes.rdropWhile isSpace

def ChangeOp.InRange (bytes : List UInt8) (op : ChangeOp) : Prop :=
  match op with
  | .copyCharpN (some y) n | .catCharpN (some y) n => n ≤ y.length ∧ (op.text bytes).length ≤ lengthMax
  | .delete pos _ | .truncate pos => pos ≤ bytes.length
  | .insertChar _ _ => bytes.length + 1 ≤ lengthMax
  | .insertCharp _ p => bytes.length + p.bytes.length ≤ lengthMax
  | _ => (op.text bytes).length ≤ lengthMax

def ChangeOp.Safe (s : Str) (bytes : List UInt8) : ChangeOp → Prop
  | .copyCharp none | .copyCharpN none _ => bytes.headD 0 = 0
  | .catChar _ => Fits bytes.length s.areaSize 1
  | .insertChar pos _ => pos ≤ bytes.length → Fits bytes.length s.areaSize 1
  | .insertCharp pos p => pos ≤ bytes.length → Fits bytes.length s.areaSize p.bytes.length
  | .chop => ¬ bytes.all isEol = true
  | _ => True

theorem NewOp.run_spec (junk : Nat → UInt8) (op : NewOp) (range : op.InRange) :
    ∃ after, op.run junk = some after ∧ Represents after op.text := by
  obtain ⟨fresh, made, empty, _⟩ := strnew_spec junk
  cases op with
  | new => exact ⟨fresh, made, empty⟩
  | newSize n =>
      obtain ⟨after, sized, represents, _⟩ := strnewSize_spec junk n
      exact ⟨after, sized, represents⟩
  | newCharp p =>
      cases p with
      | none => exact ⟨fresh, made, empty⟩
      | some p => exact strnewCharp_spec junk p
  | newMCharp ps => exact strnewMCharp_spec junk ps range.1
  | newCharpN p n =>
      cases p with
      | none =>
          obtain ⟨after, sized, represents, _⟩ := strnewSize_spec junk n
          exact ⟨after, sized, represents⟩
      | some p => exact strnewCharpN_spec junk range.2

theorem aligned_length (bytes : List UInt8) (width left : Nat) (fits : left ≤ width - bytes.length) :
    (aligned bytes width left).length = max bytes.length width := by
  rw [aligned]
  split
  · omega
  · simp
    omega

theorem DeriveOp.run_spec (junk : Nat → UInt8) {s : Str} {bytes : List UInt8} (repr : Represents s bytes)
    (small : bytes.length ≤ lengthMax) (op : DeriveOp) (range : op.InRange) :
    (∃ after, op.run junk s = some after ∧ Represents after (op.text bytes)) ∧
      (op.text bytes).length ≤ lengthMax := by
  cases op with
  | dup => exact ⟨strdup_spec junk repr, small⟩
  | substr beg len =>
      refine ⟨strsubstr_spec junk repr small beg len, ?_⟩
      simp only [DeriveOp.text, List.length_take, List.length_drop]
      omega
  | alignLeft width =>
      refine ⟨stralignLeft_spec junk repr range, ?_⟩
      rw [DeriveOp.text, aligned_length _ _ _ (Nat.zero_le _)]
      exact Nat.max_le.mpr ⟨small, range⟩
  | alignRight width =>
      refine ⟨stralignRight_spec junk repr range, ?_⟩
      rw [DeriveOp.text, aligned_length _ _ _ (Nat.le_refl _)]
      exact Nat.max_le.mpr ⟨small, range⟩
  | alignCenter width =>
      refine ⟨stralignCenter_spec junk repr range, ?_⟩
      rw [DeriveOp.text, aligned_length _ _ _ (Nat.div_le_self _ _)]
      exact Nat.max_le.mpr ⟨small, range⟩

theorem ChangeOp.run_iff (junk : Nat → UInt8) {s : Str} {bytes : List UInt8} (repr : Represents s bytes)
    (small : bytes.length ≤ lengthMax) (op : ChangeOp) (range : op.InRange bytes) :
    op.Safe s bytes ↔ ∃ after, op.run junk s = some after ∧ Represents after (op.text bytes) := by
  cases op with
  | copyCharp y =>
      cases y with
      | none =>
          rw [ChangeOp.Safe, copied_null repr]
          exact ⟨fun after => ⟨_, rfl, after⟩, fun ⟨_, copied, after⟩ => Option.some.inj copied ▸ after⟩
      | some y => exact iff_of_true trivial (strcopyCharp_spec junk repr y)
  | copyCharpN y n =>
      cases y with
      | none =>
          rw [ChangeOp.Safe, copied_null repr]
          exact ⟨fun after => ⟨_, rfl, after⟩, fun ⟨_, copied, after⟩ => Option.some.inj copied ▸ after⟩
      | some y => exact iff_of_true trivial (strcopyCharpN_spec junk repr range.1)
  | catCharpN y n =>
      cases y with
      | none => exact iff_of_true trivial ⟨s, rfl, repr⟩
      | some y =>
          have length : bytes.length + n ≤ lengthMax := by
            have both := range.2
            rw [ChangeOp.text, List.length_append, List.length_take, Nat.min_eq_left range.1] at both
            exact both
          obtain ⟨after, added, represents, _⟩ := strcatCharpN_spec junk repr range.1 length
          exact iff_of_true trivial ⟨after, added, represents⟩
  | catCharp y =>
      cases y with
      | none => exact iff_of_true trivial ⟨s, rfl, repr⟩
      | some y =>
          exact iff_of_true trivial (strcatCharp_spec junk repr y (by
            rw [← List.length_append]
            exact range))
  | catMCharp ys =>
      exact iff_of_true trivial (strcatMCharp_spec junk repr ys (by
        rw [← List.length_append]
        exact range))
  | catChar c =>
      obtain ⟨fit, overflow⟩ := strcatChar_spec junk repr small c
      constructor
      · intro fits
        obtain ⟨after, added, represents, _⟩ := fit fits
        exact ⟨after, added, represents⟩
      · rintro ⟨after, added, _⟩
        by_cases fits : Fits bytes.length s.areaSize 1
        · exact fits
        · rw [ChangeOp.run, overflow fits] at added
          exact absurd added (by simp)
  | insertChar pos c =>
      have single := strinsertCharp_spec junk repr [c] range pos
      have same : strinsertCharp junk s pos [c] = strinsertChar junk s pos c := by
        rw [strinsertCharp]
        cases strinsertChar junk s pos c with
        | none => rfl
        | some after => rfl
      rw [same] at single
      exact single
  | insertCharp pos p => exact strinsertCharp_spec junk repr p.bytes range pos
  | delete pos n => exact iff_of_true trivial (strdelete_spec repr range n)
  | truncate pos => exact iff_of_true trivial (strtruncate_spec repr range)
  | shrink n => exact iff_of_true trivial (strshrink_spec repr n)
  | chop => exact strchop_spec repr
  | removefirstspaces => exact iff_of_true trivial (strremovefirstspaces_spec repr)
  | removetrailingspaces => exact iff_of_true trivial (strremovetrailingspaces_spec repr)

/-- The strings made so far; `none` where an operation left its block or a string does not exist. -/
def Op.run (junk : Nat → UInt8) (store : List Str) : Op → Option (List Str)
  | .new op => do
      let s ← op.run junk
      some (store ++ [s])
  | .derive i op => do
      let s ← op.run junk (← store[i]?)
      some (store ++ [s])
  | .change i op => do
      let s ← op.run junk (← store[i]?)
      some (store.set i s)
  | .copy i j => do
      let s ← strcopy junk (← store[i]?) (← store[j]?)
      some (store.set i s)
  | .cat i j => do
      let s ← strcat junk (i == j) (← store[i]?) (← store[j]?)
      some (store.set i s)

def Op.texts (texts : List (List UInt8)) : Op → List (List UInt8)
  | .new op => texts ++ [op.text]
  | .derive i op => texts ++ [op.text (texts.getD i [])]
  | .change i op => texts.set i (op.text (texts.getD i []))
  | .copy i j => texts.set i (texts.getD j [])
  | .cat i j => texts.set i (texts.getD i [] ++ texts.getD j [])

def Op.InRange (texts : List (List UInt8)) : Op → Prop
  | .new op => op.InRange
  | .derive i op => i < texts.length ∧ op.InRange
  | .change i op => i < texts.length ∧ op.InRange (texts.getD i [])
  | .copy i j => i < texts.length ∧ j < texts.length
  | .cat i j => i < texts.length ∧ j < texts.length ∧
      (texts.getD i []).length + (texts.getD j []).length ≤ lengthMax

def InRangeAll : List (List UInt8) → List Op → Prop
  | _, [] => True
  | texts, op :: ops => op.InRange texts ∧ InRangeAll (op.texts texts) ops

/-- Every operation stays within its blocks, and after each one the strings are the texts. -/
def Kept (junk : Nat → UInt8) : List Str → List (List UInt8) → List Op → Prop
  | store, texts, [] => List.Forall₂ Represents store texts
  | store, texts, op :: ops => List.Forall₂ Represents store texts ∧
      ∃ next, op.run junk store = some next ∧ Kept junk next (op.texts texts) ops

def Str.bytes (s : Str) : List UInt8 := s.ptr.take s.length.toNat

/-- No byte is added to a block that is full and for 6 to 10 bytes, or that grows to one; no
string of line ends is chopped; no string is made empty by a copy of no string, unless its first
byte is a NUL; and no string is added to itself when it has to grow for it. -/
def Safe (store : List Str) : Op → Prop
  | .change i op => ∀ s, store[i]? = some s → op.Safe s s.bytes
  | .cat i j => ∀ s, store[i]? = some s → ¬ (i = j ∧ s.areaSize < s.length + s.length + 1)
  | _ => True

theorem Represents.bytes_eq {s : Str} {bytes : List UInt8} (repr : Represents s bytes) : s.bytes = bytes := by
  obtain ⟨left, shape⟩ := repr.terminated
  rw [Str.bytes, repr.length, shape]
  exact List.take_left

theorem stored {store : List Str} {texts : List (List UInt8)} (all : List.Forall₂ Represents store texts)
    {i : Nat} (inside : i < texts.length) :
    ∃ s, store[i]? = some s ∧ Represents s (texts.getD i []) := by
  have length := all.length_eq
  refine ⟨store[i], List.getElem?_eq_getElem (by omega), ?_⟩
  have found := List.forall₂_iff_get.mp all
  simpa [List.getD_eq_getElem?_getD, inside] using found.2 i (by omega) inside

theorem forall₂_set {store : List Str} {texts : List (List UInt8)} (all : List.Forall₂ Represents store texts)
    (i : Nat) {s : Str} {bytes : List UInt8} (repr : Represents s bytes) :
    List.Forall₂ Represents (store.set i s) (texts.set i bytes) := by
  induction all generalizing i with
  | nil => exact .nil
  | cons first rest ih =>
      cases i with
      | zero => exact .cons repr rest
      | succ i => exact .cons first (ih i)

theorem set_represents {store : List Str} {texts : List (List UInt8)} {i : Nat} {s : Str} {bytes : List UInt8}
    (inside : i < texts.length) (all : List.Forall₂ Represents (store.set i s) (texts.set i bytes)) :
    Represents s bytes := by
  obtain ⟨found, at_, repr⟩ := stored all (i := i) (by rwa [List.length_set])
  have length := all.length_eq
  rw [List.length_set, List.length_set] at length
  rw [List.getElem?_set_self (by omega), Option.some.injEq] at at_
  rw [List.getD_eq_getElem?_getD, List.getElem?_set_self inside, Option.getD_some] at repr
  rwa [at_]

theorem ChangeOp.text_length {bytes : List UInt8} (small : bytes.length ≤ lengthMax) (op : ChangeOp)
    (range : op.InRange bytes) : (op.text bytes).length ≤ lengthMax := by
  cases op with
  | copyCharp | catCharp | catMCharp | catChar => exact range
  | copyCharpN y n =>
      cases y with
      | none => exact range
      | some y => exact range.2
  | catCharpN y n =>
      cases y with
      | none => exact range
      | some y => exact range.2
  | insertChar pos c => exact Nat.le_trans (inserted_length bytes pos [c]) range
  | insertCharp pos p => exact Nat.le_trans (inserted_length bytes pos p.bytes) range
  | delete pos n =>
      simp only [ChangeOp.text, List.length_append, List.length_take, List.length_drop]
      omega
  | truncate pos =>
      rw [ChangeOp.text, List.length_take]
      omega
  | shrink n =>
      rw [ChangeOp.text, List.length_take]
      omega
  | chop => exact Nat.le_trans (rdropWhile_take isEol bytes).2 small
  | removefirstspaces => exact Nat.le_trans (List.dropWhile_suffix isSpace).length_le small
  | removetrailingspaces => exact Nat.le_trans (rdropWhile_take isSpace bytes).2 small

def Small (texts : List (List UInt8)) : Prop := ∀ bytes ∈ texts, bytes.length ≤ lengthMax

theorem Small.getD {texts : List (List UInt8)} (small : Small texts) (i : Nat) :
    (texts.getD i []).length ≤ lengthMax := by
  rw [List.getD_eq_getElem?_getD]
  cases found : texts[i]? with
  | none => exact Nat.zero_le _
  | some bytes => exact small bytes (List.mem_of_getElem? found)

theorem Small.append {texts : List (List UInt8)} (small : Small texts) {bytes : List UInt8}
    (length : bytes.length ≤ lengthMax) : Small (texts ++ [bytes]) := by
  intro other found
  rcases List.mem_append.mp found with old | new
  · exact small other old
  · rw [List.mem_singleton.mp new]
    exact length

theorem Small.set {texts : List (List UInt8)} (small : Small texts) (i : Nat) {bytes : List UInt8}
    (length : bytes.length ≤ lengthMax) : Small (texts.set i bytes) := by
  intro other found
  rcases List.mem_or_eq_of_mem_set found with old | rfl
  · exact small other old
  · exact length

theorem Op.run_iff (junk : Nat → UInt8) {store : List Str} {texts : List (List UInt8)}
    (all : List.Forall₂ Represents store texts) (small : Small texts) (op : Op) (range : op.InRange texts) :
    (Safe store op ↔ ∃ next, op.run junk store = some next ∧ List.Forall₂ Represents next (op.texts texts)) ∧
      Small (op.texts texts) := by
  cases op with
  | new op =>
      obtain ⟨s, made, repr⟩ := op.run_spec junk range
      refine ⟨iff_of_true trivial ⟨store ++ [s], ?_, ?_⟩, small.append range.1⟩
      · rw [Op.run, made]
        rfl
      · exact List.rel_append all (.cons repr .nil)
  | derive i op =>
      obtain ⟨s, found, repr⟩ := stored all range.1
      obtain ⟨⟨after, derived, represents⟩, length⟩ := op.run_spec junk repr (small.getD i) range.2
      refine ⟨iff_of_true trivial ⟨store ++ [after], ?_, ?_⟩, small.append length⟩
      · rw [Op.run, found]
        simp only [Option.bind_eq_bind, Option.bind_some, derived]
      · exact List.rel_append all (.cons represents .nil)
  | change i op =>
      obtain ⟨s, found, repr⟩ := stored all range.1
      have changes := op.run_iff junk repr (small.getD i) range.2
      refine ⟨?_, small.set i (op.text_length (small.getD i) range.2)⟩
      have safe : Safe store (.change i op) ↔ op.Safe s (texts.getD i []) := by
        rw [Safe, ← repr.bytes_eq]
        constructor
        · exact fun every => every s found
        · intro one other same
          rw [found, Option.some.injEq] at same
          exact same ▸ one
      rw [safe, changes, Op.run, found]
      simp only [Option.bind_eq_bind, Option.bind_some, Op.texts]
      constructor
      · rintro ⟨after, changed, represents⟩
        exact ⟨store.set i after, by rw [changed]; rfl, forall₂_set all i represents⟩
      · rintro ⟨next, changed, represents⟩
        rw [Option.bind_eq_some_iff] at changed
        obtain ⟨after, changed, stored⟩ := changed
        rw [← Option.some.inj stored] at represents
        exact ⟨after, changed, set_represents range.1 represents⟩
  | copy i j =>
      obtain ⟨x, foundX, reprX⟩ := stored all range.1
      obtain ⟨y, foundY, reprY⟩ := stored all range.2
      obtain ⟨after, copied, represents, _⟩ := strcopy_spec junk reprX reprY
      refine ⟨iff_of_true trivial ⟨store.set i after, ?_, forall₂_set all i represents⟩, small.set i (small.getD j)⟩
      rw [Op.run, foundX, foundY]
      simp only [Option.bind_eq_bind, Option.bind_some, copied]
  | cat i j =>
      obtain ⟨x, foundX, reprX⟩ := stored all range.1
      obtain ⟨y, foundY, reprY⟩ := stored all range.2.1
      obtain ⟨added, freed⟩ := strcat_spec junk reprX reprY range.2.2 (i == j)
      refine ⟨?_, small.set i (by rw [List.length_append]; exact range.2.2)⟩
      have safe : Safe store (.cat i j) ↔ ¬ ((i == j) = true ∧
          x.areaSize < (texts.getD i []).length + (texts.getD j []).length + 1) := by
        rw [Safe, beq_iff_eq]
        constructor
        · rintro every ⟨same, tight⟩
          refine every x foundX ⟨same, ?_⟩
          rw [reprX.length]
          rwa [← same] at tight
        · rintro one s found ⟨same, tight⟩
          rw [foundX, Option.some.injEq] at found
          refine one ⟨same, ?_⟩
          rw [← found, reprX.length] at tight
          rwa [← same]
      rw [safe, Op.run, foundX, foundY]
      simp only [Option.bind_eq_bind, Option.bind_some, Op.texts]
      constructor
      · intro fits
        obtain ⟨after, changed, represents, _⟩ := added fits
        exact ⟨store.set i after, by rw [changed]; rfl, forall₂_set all i represents⟩
      · rintro ⟨next, changed, _⟩ tight
        rw [freed tight] at changed
        exact absurd changed (by simp)

theorem kept_iff (junk : Nat → UInt8) {store : List Str} {texts : List (List UInt8)}
    (all : List.Forall₂ Represents store texts) (small : Small texts) (ops : List Op)
    (range : InRangeAll texts ops) :
    Kept junk store texts ops ↔ Run.Admitted (fun store op => Op.run junk store op) Safe store ops := by
  induction ops generalizing store texts with
  | nil => exact iff_of_true all trivial
  | cons op ops ih =>
      obtain ⟨needs, small'⟩ := op.run_iff junk all small range.1
      rw [Kept, Run.Admitted]
      constructor
      · rintro ⟨_, next, ran, later⟩
        have represents : List.Forall₂ Represents next (op.texts texts) := by
          cases ops with
          | nil => exact later
          | cons => exact later.1
        refine ⟨needs.mpr ⟨next, ran, represents⟩, fun other same => ?_⟩
        obtain rfl : next = other := Option.some.inj (ran.symm.trans same)
        exact (ih represents small' range.2).mp later
      · rintro ⟨safe, later⟩
        obtain ⟨next, ran, represents⟩ := needs.mp safe
        exact ⟨all, next, ran, (ih represents small' range.2).mpr (later next ran)⟩

/-- Every operation stays within its blocks and does what it does to the texts, exactly when
every operation is a safe one. -/
theorem ops_kept_iff (junk : Nat → UInt8) (ops : List Op) (range : InRangeAll [] ops) :
    Kept junk [] [] ops ↔ Run.Admitted (fun store op => Op.run junk store op) Safe [] ops :=
  kept_iff junk .nil (by simp [Small]) ops range

theorem le_lengthMax {n : Nat} (short : n ≤ 100) : n ≤ lengthMax := by
  unfold lengthMax
  omega

/-- The text `ab` in a block of its size, and a byte behind it. -/
theorem ops_kept_iff_short : InRangeAll []
      [.new (.newCharp (some ⟨[97, 98], by simp⟩)), .change 0 (.catChar 99)] ∧
    Kept (fun _ => 7) [] [] [.new (.newCharp (some ⟨[97, 98], by simp⟩)), .change 0 (.catChar 99)] := by
  have range : InRangeAll [] [.new (.newCharp (some ⟨[97, 98], by simp⟩)), .change 0 (.catChar 99)] := by
    exact ⟨⟨le_lengthMax (by simp [NewOp.text]), trivial⟩,
      ⟨by simp [Op.texts], le_lengthMax (by simp [Op.texts, ChangeOp.text, NewOp.text])⟩, trivial⟩
  refine ⟨range, (ops_kept_iff _ _ range).mpr ⟨trivial, fun next made => ⟨?_, fun _ _ => trivial⟩⟩⟩
  rw [← Option.some.inj made]
  rintro s found
  rw [← Option.some.inj found]
  exact .inr (.inr (by decide))

/-- The text `abcdef` in a block of its size: the NUL behind a seventh byte is outside. -/
theorem ops_overflow : InRangeAll []
      [.new (.newCharp (some ⟨[97, 98, 99, 100, 101, 102], by simp⟩)), .change 0 (.catChar 103)] ∧
    Op.run (fun _ => 7) [⟨[97, 98, 99, 100, 101, 102, 0], 6, 7⟩] (.change 0 (.catChar 103)) = none ∧
    ¬ Kept (fun _ => 7) [] []
      [.new (.newCharp (some ⟨[97, 98, 99, 100, 101, 102], by simp⟩)), .change 0 (.catChar 103)] := by
  refine ⟨⟨⟨le_lengthMax (by simp [NewOp.text]), trivial⟩,
    ⟨by simp [Op.texts], le_lengthMax (by simp [Op.texts, ChangeOp.text, NewOp.text])⟩, trivial⟩, by decide, ?_⟩
  · rintro ⟨_, next, made, _, after, added, _⟩
    rw [← Option.some.inj made] at added
    have none : (none : Option (List Str)) = some after := added
    exact nomatch none

end KcnTools.W3m
