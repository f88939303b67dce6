import Mathlib.Tactic.Common

/-!
The scanner table (`util/scanner.h`): tokens are scanned in batches into a table of ten
entries, and the entry behind the current one can always be looked at.
-/

namespace KcnTools.Util

structure ScannerToken (τ : Type) where
  type : τ
  string : Nat
  length : Int
  deriving DecidableEq

instance {τ : Type} [Inhabited τ] : Inhabited (ScannerToken τ) := ⟨⟨default, 0, 0⟩⟩

def tableSize : Nat := 10

/-- Positions are places in the text, which ends at `stop`; there is none when no more tokens
can be scanned. The current token is given by its index in the table. -/
structure Scanner (τ : Type) where
  position : Option Nat
  stop : Nat
  current : Nat
  tokens : Int
  table : List (ScannerToken τ)

variable {τ : Type}

def Scanner.hasTokens (scanner : Scanner τ) : Bool :=
  decide (0 < scanner.tokens) && decide ((scanner.current : Int) < scanner.tokens)

def getScannerToken (scanner : Scanner τ) : Option (ScannerToken τ) :=
  if scanner.hasTokens then scanner.table[scanner.current]? else none

def getNextScannerToken (scan : Scanner τ → Scanner τ) (scanner : Scanner τ) : Scanner τ :=
  if scanner.hasTokens then
    let next := { scanner with current := scanner.current + 1 }
    if next.tokens ≤ (next.current : Int) + 1 then scan next else next
  else scanner

def beginTokenScanning [Inhabited τ] (scanner : Scanner τ) : Scanner τ × Bool :=
  let moveToFront := (scanner.tokens - scanner.current).toNat
  let table := (scanner.table.drop scanner.current).take moveToFront ++
    List.replicate (tableSize - moveToFront) default
  if scanner.position.isNone then
    ({ scanner with
      tokens := if moveToFront = 0 then -1 else moveToFront
      current := 0
      table := table }, false)
  else ({ scanner with tokens := moveToFront, table := table }, true)

def endTokenScanning (scanner : Scanner τ) (last : Int) : Scanner τ :=
  { scanner with
    tokens := last
    current := 0
    position := scanner.position.filter fun place => decide (place < scanner.stop) }

def blankScanner [Inhabited τ] (length : Nat) : Scanner τ :=
  ⟨some 0, length, 0, 0, List.replicate tableSize default⟩

def initScanner [Inhabited τ] (scan : Scanner τ → Scanner τ) (length : Nat) : Scanner τ :=
  scan (blankScanner length)

def Scanner.pending (scanner : Scanner τ) : List (ScannerToken τ) :=
  (scanner.table.take scanner.tokens.toNat).drop scanner.current

/-- The scanned tokens of a text of that length fit in the table. -/
structure TableOk (length : Nat) (scanner : Scanner τ) : Prop where
  stop : scanner.stop = length
  size : scanner.table.length = tableSize
  filled : scanner.tokens ≤ tableSize

variable {length : Nat}

theorem pending_length {scanner : Scanner τ} (ok : TableOk length scanner) :
    scanner.pending.length = (scanner.tokens - scanner.current).toNat := by
  have size := ok.size
  have filled := ok.filled
  simp only [Scanner.pending, List.length_drop, List.length_take]
  omega

theorem hasTokens_iff {scanner : Scanner τ} (ok : TableOk length scanner) :
    scanner.hasTokens = true ↔ scanner.pending ≠ [] := by
  rw [← List.length_pos_iff, pending_length ok]
  simp only [Scanner.hasTokens, Bool.and_eq_true, decide_eq_true_eq]
  omega

theorem getScannerToken_eq {scanner : Scanner τ} (ok : TableOk length scanner) :
    getScannerToken scanner = scanner.pending.head? := by
  by_cases has : scanner.hasTokens = true
  · have inside : scanner.current < scanner.tokens.toNat := by
      simp only [Scanner.hasTokens, Bool.and_eq_true, decide_eq_true_eq] at has
      omega
    rw [getScannerToken, if_pos has, Scanner.pending, List.head?_drop, List.getElem?_take_of_lt inside]
  · have nothing : scanner.pending = [] := by
      by_contra some
      exact has ((hasTokens_iff ok).mpr some)
    rw [getScannerToken, if_neg has, nothing, List.head?_nil]

theorem pending_skip (scanner : Scanner τ) :
    ({ scanner with current := scanner.current + 1 } : Scanner τ).pending = scanner.pending.tail := by
  rw [Scanner.pending, Scanner.pending, List.tail_drop]

theorem getNextScannerToken_eq {scan : Scanner τ → Scanner τ} {scanner : Scanner τ}
    (ok : TableOk length scanner) (has : scanner.pending ≠ []) :
    getNextScannerToken scan scanner =
      if 2 < scanner.pending.length then { scanner with current := scanner.current + 1 }
      else scan { scanner with current := scanner.current + 1 } := by
  have count := pending_length ok
  rw [getNextScannerToken, if_pos ((hasTokens_iff ok).mpr has)]
  by_cases more : 2 < scanner.pending.length
  · rw [if_pos more, if_neg]
    push_cast
    omega
  · rw [if_neg more, if_pos]
    push_cast
    omega

section Scanning

variable [Inhabited τ] {scanner : Scanner τ}

theorem beginTokenScanning_position :
    (beginTokenScanning scanner).1.position = scanner.position ∧
      (beginTokenScanning scanner).1.stop = scanner.stop ∧
      (beginTokenScanning scanner).2 = scanner.position.isSome := by
  cases found : scanner.position with
  | none => simp [beginTokenScanning, found]
  | some place => simp [beginTokenScanning, found]

theorem beginTokenScanning_table (ok : TableOk length scanner) :
    TableOk length (beginTokenScanning scanner).1 ∧
      (beginTokenScanning scanner).1.table.take scanner.pending.length = scanner.pending ∧
      (beginTokenScanning scanner).1.tokens.toNat = scanner.pending.length := by
  have size := ok.size
  have filled := ok.filled
  have count := pending_length ok
  have untouched : (scanner.table.drop scanner.current).take
      (scanner.tokens - scanner.current).toNat = scanner.pending := by
    rw [Scanner.pending, List.drop_take]
    congr 1
    omega
  have table : (beginTokenScanning scanner).1.table =
      scanner.pending ++ List.replicate (tableSize - scanner.pending.length) default := by
    cases found : scanner.position with
    | none => simp only [beginTokenScanning, found, Option.isNone_none, ↓reduceIte, untouched, count]
    | some place =>
        simp only [beginTokenScanning, found, Option.isNone_some, Bool.false_eq_true, ↓reduceIte,
          untouched, count]
  have tokens : (beginTokenScanning scanner).1.tokens.toNat = scanner.pending.length ∧
      (beginTokenScanning scanner).1.tokens ≤ tableSize := by
    cases found : scanner.position with
    | none =>
        simp only [beginTokenScanning, found, Option.isNone_none, ↓reduceIte, ← count]
        split <;> omega
    | some place =>
        simp only [beginTokenScanning, found, Option.isNone_some, Bool.false_eq_true, ↓reduceIte,
          ← count]
        omega
  refine ⟨⟨beginTokenScanning_position.2.1.trans ok.stop, ?_, tokens.2⟩, ?_, tokens.1⟩
  · rw [table, List.length_append, List.length_replicate]
    omega
  · rw [table, List.take_left']
    rfl

theorem beginTokenScanning_pending (ok : TableOk length scanner) (nothing : scanner.position = none) :
    (beginTokenScanning scanner).1.pending = scanner.pending := by
  obtain ⟨_, table, tokens⟩ := beginTokenScanning_table ok
  have first : (beginTokenScanning scanner).1.current = 0 := by
    simp only [beginTokenScanning, nothing, Option.isNone_none, ↓reduceIte]
  rw [Scanner.pending, tokens, table, first, List.drop_zero]

end Scanning

def readScannerTokens (scan : Scanner τ → Scanner τ) :
    Nat → Scanner τ → Option (List (ScannerToken τ))
  | 0, _ => none
  | fuel + 1, scanner =>
      match getScannerToken scanner with
      | none => some []
      | some token =>
          (readScannerTokens scan fuel (getNextScannerToken scan scanner)).map fun rest => token :: rest

section Reading

/-! The tokens behind a place of the text, and whether an invalid one ends them. -/

variable (behind : Nat → List (ScannerToken τ)) (cut : Nat → Prop) [DecidablePred cut]

def continued (pending : List (ScannerToken τ)) (place : Nat) : List (ScannerToken τ) :=
  if cut place then (pending ++ behind place).dropLast else pending ++ behind place

def Scanner.remaining (scanner : Scanner τ) : List (ScannerToken τ) :=
  match scanner.position with
  | none => scanner.pending
  | some place => continued behind cut scanner.pending place

/-- While there is more to scan the token behind the current one is in the table. -/
structure LooksAhead (length : Nat) (scanner : Scanner τ) : Prop where
  table : TableOk length scanner
  ahead : scanner.position.isSome = true → 2 ≤ scanner.pending.length

structure Refills (length : Nat) (scan : Scanner τ → Scanner τ) : Prop where
  looks : ∀ scanner, TableOk length scanner → scanner.pending.length ≤ 1 → LooksAhead length (scan scanner)
  remaining : ∀ scanner, TableOk length scanner → scanner.pending.length ≤ 1 →
    (scan scanner).remaining behind cut = scanner.remaining behind cut

variable {behind cut} {scan : Scanner τ → Scanner τ} {scanner : Scanner τ}

theorem endTokenScanning_remaining {place : Nat} (here : scanner.position = some place) (last : Int) :
    (endTokenScanning scanner last).remaining behind cut =
      if place < scanner.stop then continued behind cut (scanner.table.take last.toNat) place
      else scanner.table.take last.toNat := by
  by_cases more : place < scanner.stop
  · have kept : (endTokenScanning scanner last).position = some place := by
      simp [endTokenScanning, here, more]
    rw [Scanner.remaining, kept, if_pos more]
    rfl
  · have dropped : (endTokenScanning scanner last).position = none := by
      simpa [endTokenScanning, here] using more
    rw [Scanner.remaining, dropped, if_neg more]
    rfl

theorem LooksAhead.remaining_head (looks : LooksAhead length scanner) :
    getScannerToken scanner = (scanner.remaining behind cut).head? := by
  rw [getScannerToken_eq looks.table, Scanner.remaining]
  cases found : scanner.position with
  | none => rfl
  | some place =>
      have ahead := looks.ahead (by rw [found]; rfl)
      obtain ⟨first, second, rest, pending⟩ : ∃ first second rest,
          scanner.pending = first :: second :: rest := by
        match scanner.pending, ahead with
        | first :: second :: rest, _ => exact ⟨first, second, rest, rfl⟩
      simp only [continued, pending, List.cons_append, List.dropLast_cons_cons]
      split <;> rfl

theorem remaining_skip (looks : LooksAhead length scanner) :
    ({ scanner with current := scanner.current + 1 } : Scanner τ).remaining behind cut =
      (scanner.remaining behind cut).tail := by
  rw [Scanner.remaining, Scanner.remaining, pending_skip]
  cases found : scanner.position with
  | none => rfl
  | some place =>
      have ahead := looks.ahead (by rw [found]; rfl)
      match scanner.pending, ahead with
      | first :: second :: rest, _ =>
          simp only [continued, List.tail_cons, List.cons_append, List.dropLast_cons_cons]
          split <;> rfl

theorem LooksAhead.skip (refills : Refills behind cut length scan) (looks : LooksAhead length scanner)
    (has : scanner.pending ≠ []) :
    LooksAhead length (getNextScannerToken scan scanner) ∧
      (getNextScannerToken scan scanner).remaining behind cut =
        (scanner.remaining behind cut).tail := by
  have table : TableOk length { scanner with current := scanner.current + 1 } :=
    ⟨looks.table.stop, looks.table.size, looks.table.filled⟩
  have count := congrArg List.length (pending_skip scanner)
  rw [List.length_tail] at count
  rw [getNextScannerToken_eq looks.table has, ← remaining_skip looks]
  by_cases more : 2 < scanner.pending.length
  · rw [if_pos more]
    refine ⟨⟨table, fun _ => ?_⟩, rfl⟩
    omega
  · rw [if_neg more]
    have short : ({ scanner with current := scanner.current + 1 } : Scanner τ).pending.length ≤ 1 := by
      omega
    exact ⟨refills.looks _ table short, refills.remaining _ table short⟩

/-- Reading gives the remaining tokens and ends, each skip leaving one token less. -/
theorem readScannerTokens_eq (refills : Refills behind cut length scan) (fuel : Nat)
    (looks : LooksAhead length scanner) :
    readScannerTokens scan fuel scanner =
      if (scanner.remaining behind cut).length < fuel then some (scanner.remaining behind cut)
      else none := by
  induction fuel generalizing scanner with
  | zero => rfl
  | succ fuel ih =>
      have head : getScannerToken scanner = (scanner.remaining behind cut).head? := looks.remaining_head
      rw [readScannerTokens, head]
      cases left : scanner.remaining behind cut with
      | nil => rfl
      | cons token rest =>
          have has : scanner.pending ≠ [] := by
            intro nothing
            rw [getScannerToken_eq looks.table, nothing, left] at head
            cases head
          obtain ⟨next, tail⟩ := looks.skip refills has
          rw [left, List.tail_cons] at tail
          simp only [List.head?_cons, List.length_cons, Nat.add_lt_add_iff_right]
          rw [ih next, tail]
          split <;> rfl

theorem reads_iff (refills : Refills behind cut length scan) (looks : LooksAhead length scanner)
    (tokens : List (ScannerToken τ)) :
    (∃ fuel, readScannerTokens scan fuel scanner = some tokens) ↔
      tokens = scanner.remaining behind cut := by
  constructor
  · rintro ⟨fuel, read⟩
    rw [readScannerTokens_eq refills fuel looks] at read
    split at read
    · exact (Option.some.inj read).symm
    · cases read
  · intro all
    refine ⟨(scanner.remaining behind cut).length + 1, ?_⟩
    rw [readScannerTokens_eq refills _ looks, if_pos (Nat.lt_succ_self _), all]

theorem blankScanner_ok [Inhabited τ] : TableOk length (blankScanner length : Scanner τ) where
  stop := rfl
  size := List.length_replicate
  filled := Int.natCast_nonneg tableSize

theorem initScanner_reads [Inhabited τ] (refills : Refills behind cut length scan)
    (tokens : List (ScannerToken τ)) :
    (∃ fuel, readScannerTokens scan fuel (initScanner scan length) = some tokens) ↔
      tokens = continued behind cut [] 0 := by
  have short : (blankScanner length : Scanner τ).pending.length ≤ 1 := Nat.zero_le 1
  rw [initScanner, reads_iff refills (refills.looks _ blankScanner_ok short),
    refills.remaining _ blankScanner_ok short]
  rfl

end Reading

end KcnTools.Util
