import KcnTools.Viewer.SearchIndex
import Mathlib

/-!
When a search finds what a scan of the whole index finds. The matches between the entries of the
lines of the window are seen, and the others may be missing.
-/

namespace KcnTools.Viewer

/-! What has been added ends with one blank. -/

def EndsWith (search : List Search) (blank : Bool) : Prop :=
  ∃ front s, s.c ≠ 32 ∧
    if blank then ∃ last : Search, last.c = 32 ∧ search = front ++ [s, last] else search = front ++ [s]

theorem addSrchChr_ends {search : List Search} (ends : search = [] ∨ ∃ blank, EndsWith search blank)
    (char : SearchChar) :
    (char.c = 32 ∧ addSrchChr search char = [] ∧ search = []) ∨
      EndsWith (addSrchChr search char) (decide (char.c = 32)) := by
  rw [addSrchChr]
  by_cases space : char.c = 32
  · rcases ends with rfl | ⟨blank, front, s, filled, standing⟩
    · left
      rw [if_pos ⟨space, rfl⟩]
      exact ⟨space, rfl, rfl⟩
    · right
      rw [decide_eq_true space]
      cases blank with
      | true =>
          obtain ⟨last, blank, rfl⟩ := standing
          rw [if_pos ⟨space, by simp [blank]⟩]
          exact ⟨front, s, filled, last, blank, rfl⟩
      | false =>
          have same : search = front ++ [s] := standing
          rw [if_neg, same]
          · exact ⟨front, s, filled, _, space, by rw [List.append_assoc]; rfl⟩
          · rintro ⟨-, last⟩
            rw [same, List.getLast?_concat] at last
            exact filled last
  · right
    rw [if_neg fun both => space both.1, decide_eq_false space]
    exact ⟨search, _, space, rfl⟩

theorem foldl_addSrchChr_ends (calls : List SearchChar) :
    calls.foldl addSrchChr [] = [] ∨ ∃ blank, EndsWith (calls.foldl addSrchChr []) blank := by
  induction calls using List.reverseRecOn with
  | nil => exact .inl rfl
  | append_singleton calls char ih =>
      rw [List.foldl_append]
      rcases addSrchChr_ends ih char with ⟨-, nothing, -⟩ | ends
      · exact .inl nothing
      · exact .inr ⟨_, ends⟩

def EndsBlank (calls : List SearchChar) : Prop := ∃ front last, calls = front ++ [last] ∧ last.c = 32

/-- The calls of `add_srch_chr` for a document: the last one adds a blank, and something else is
added before. -/
structure SearchCalls where
  calls : List SearchChar
  ends : EndsBlank calls
  filled : calls.foldl addSrchChr [] ≠ []

theorem SearchCalls.endsWith (index : SearchCalls) : EndsWith (index.calls.foldl addSrchChr []) true := by
  obtain ⟨front, last, same, space⟩ := index.ends
  have filled := index.filled
  rw [same, List.foldl_append] at filled ⊢
  rcases addSrchChr_ends (foldl_addSrchChr_ends front) last with ⟨-, nothing, -⟩ | ends
  · exact absurd nothing filled
  · rwa [decide_eq_true space] at ends

theorem flatMap_endsBlank {α : Type} {part : α → List SearchChar} {parts : List α}
    (ends : ∀ node ∈ parts, part node = [] ∨ EndsBlank (part node)) :
    parts.flatMap part = [] ∨ EndsBlank (parts.flatMap part) := by
  induction parts with
  | nil => exact .inl rfl
  | cons node parts ih =>
      rw [List.flatMap_cons]
      rcases ih fun other member => ends other (.tail _ member) with nothing | ⟨front, last, same, blank⟩
      · rw [nothing, List.append_nil]
        exact ends node (.head _)
      · exact .inr ⟨part node ++ front, last, by rw [same, List.append_assoc], blank⟩

theorem getSrch_endsBlank (document : Document) : getSrch document = [] ∨ EndsBlank (getSrch document) := by
  refine flatMap_endsBlank fun node _ => flatMap_endsBlank fun y _ => .inr ?_
  exact ⟨_, _, rfl, rfl⟩

def SearchCalls.ofDocument (document : Document) (filled : (getSrch document).foldl addSrchChr [] ≠ []) :
    SearchCalls where
  calls := getSrch document
  ends := (getSrch_endsBlank document).resolve_left fun nothing => filled (congrArg (List.foldl addSrchChr []) nothing)
  filled := filled

/-- The position that is left is the one of the last character, which one blank follows. -/
theorem trimSearch_endsWith {search : List Search} (ends : EndsWith search true) :
    trimSearch search search.length + 2 = search.length := by
  obtain ⟨front, s, filled, last, blank, rfl⟩ := ends
  have length : (front ++ [s, last]).length = front.length + 1 + 1 := by simp
  have behind : (front ++ [s, last])[front.length + 1]? = some last := by simp
  have here : (front ++ [s, last])[front.length]? = some s := by simp
  rw [length, trimSearch, behind, if_pos (by simpa using blank), trimSearch, here, if_neg (by simpa using filled)]

/-! The tables of the lines. -/

/-- The first one of the entries of a line with the smallest key, which is below a start -/
structure BestEntry (key : Search → Int) (start : Int) (search : List Search) (nsearch y i : Nat) : Prop where
  inside : i < nsearch
  best : ∃ s, search[i]? = some s ∧ s.y = (y : Int) ∧ key s < start ∧
    ∀ j < nsearch, ∀ other, search[j]? = some other → other.y = (y : Int) →
      key s ≤ key other ∧ (j < i → key s < key other)

/-- What a line has after some entries: the key is a lower bound, and the entry is the first one with it. -/
structure LineBest (key : Search → Int) (start : Int) (search : List Search) (nsearch y : Nat)
    (best : Int × Option Nat) : Prop where
  least : ∀ i < nsearch, ∀ s, search[i]? = some s → s.y = (y : Int) → best.1 ≤ key s
  below : best.1 ≤ start
  reached : ∀ i ∈ best.2, i < nsearch ∧
    (∃ s, search[i]? = some s ∧ s.y = (y : Int) ∧ key s = best.1 ∧ best.1 < start) ∧
    ∀ j < i, ∀ s, search[j]? = some s → s.y = (y : Int) → best.1 < key s
  missing : best.2 = none → best.1 = start

theorem sortLine_lineBest (key : Search → Int) (start : Int) (search : List Search) (nsearch y : Nat) :
    LineBest key start search nsearch y (sortLine key start search nsearch y) := by
  induction nsearch with
  | zero =>
      refine ⟨fun i inside => absurd inside (Nat.not_lt_zero i), Int.le_refl start, fun i found => ?_, fun _ => rfl⟩
      cases found
  | succ nsearch ih =>
      have step : sortLine key start search (nsearch + 1) y =
          (search[nsearch]?).elim (sortLine key start search nsearch y) fun s =>
            if s.y = (y : Int) ∧ key s < (sortLine key start search nsearch y).1 then (key s, some nsearch)
            else sortLine key start search nsearch y := by
        rw [sortLine, List.range_succ, List.foldl_append]
        simp only [List.foldl_cons, List.foldl_nil]
        cases search[nsearch]? <;> rfl
      have older := fun i found =>
        And.imp_left (fun inside => Nat.lt_succ_of_lt inside) (ih.reached i found)
      rw [step]
      cases sought : search[nsearch]? with
      | none =>
        refine ⟨fun i inside s here same => ?_, ih.below, older, ih.missing⟩
        rcases Nat.lt_or_eq_of_le (Nat.le_of_lt_succ inside) with earlier | rfl
        · exact ih.least i earlier s here same
        · rw [sought] at here
          contradiction
      | some last =>
        have here := sought
        rw [Option.elim_some]
        split
        next better =>
          refine ⟨fun i inside s there same => ?_, ?_, ?_, fun contra => by cases contra⟩
          · rcases Nat.lt_or_eq_of_le (Nat.le_of_lt_succ inside) with earlier | rfl
            · exact Int.le_trans (Int.le_of_lt better.2) (ih.least i earlier s there same)
            · rw [here, Option.some.injEq] at there
              exact Int.le_of_eq (congrArg key there)
          · exact Int.le_trans (Int.le_of_lt better.2) ih.below
          · rintro i ⟨⟩
            refine ⟨Nat.lt_succ_self nsearch, ⟨last, here, better.1, rfl, ?_⟩, fun j earlier s there same => ?_⟩
            · exact Int.lt_of_lt_of_le better.2 ih.below
            · exact Int.lt_of_lt_of_le better.2 (ih.least j earlier s there same)
        next worse =>
          refine ⟨fun i inside s there same => ?_, ih.below, older, ih.missing⟩
          rcases Nat.lt_or_eq_of_le (Nat.le_of_lt_succ inside) with earlier | rfl
          · exact ih.least i earlier s there same
          · rw [here, Option.some.injEq] at there
            subst there
            exact Int.not_lt.mp fun better => worse ⟨same, better⟩

theorem sortLine_best (key : Search → Int) (start : Int) (search : List Search) (nsearch y i : Nat) :
    (sortLine key start search nsearch y).2 = some i ↔ BestEntry key start search nsearch y i := by
  have line := sortLine_lineBest key start search nsearch y
  constructor
  · intro found
    obtain ⟨inside, ⟨s, here, same, least, low⟩, first⟩ := line.reached i found
    refine ⟨inside, s, here, same, least ▸ low, fun j within other there same => ⟨?_, fun earlier => ?_⟩⟩
    · exact least ▸ line.least j within other there same
    · exact least ▸ first j earlier other there same
  · rintro ⟨inside, s, here, same, low, best⟩
    have least := line.least i inside s here same
    cases found : (sortLine key start search nsearch y).2 with
    | none =>
        rw [line.missing found] at least
        omega
    | some other =>
        obtain ⟨within, ⟨t, there, sameT, leastT, -⟩, first⟩ := line.reached other found
        rcases Nat.lt_trichotomy i other with earlier | rfl | later
        · have := first i earlier s here same
          have := (best other within t there sameT).1
          omega
        · rfl
        · have := (best other within t there sameT).2 later
          omega

/-! What the matches amount to. -/

section Ranges

variable {fold : UInt8 → UInt8} {document : SearchData} {y height : Int} {text : List UInt8}

theorem foldl_extend_found (range : InRange) (entries : List Search) :
    (entries.foldl InRange.extend range).found = range.found := by
  induction entries generalizing range with
  | nil => rfl
  | cons s entries ih =>
      rw [List.foldl_cons, ih, InRange.extend]
      split <;> rfl

theorem foldl_extend_min (range : InRange) (entries : List Search) (x : Int) :
    (entries.foldl InRange.extend range).min ≤ x ↔ range.min ≤ x ∨ ∃ s ∈ entries, s.n ≠ 0 ∧ s.x ≤ x := by
  induction entries generalizing range with
  | nil => simp
  | cons s entries ih =>
      rw [List.foldl_cons, ih, List.exists_mem_cons_iff, ← or_assoc]
      refine or_congr ?_ Iff.rfl
      rw [InRange.extend]
      split
      next zero => simp [zero]
      next wide =>
        dsimp only
        split
        · constructor
          · exact fun left => .inr ⟨wide, left⟩
          · rintro (before | ⟨-, here⟩) <;> omega
        · constructor
          · exact .inl
          · rintro (before | ⟨-, here⟩) <;> omega

theorem foldl_extend_max (range : InRange) (entries : List Search) (x : Int) :
    x ≤ (entries.foldl InRange.extend range).max ↔ x ≤ range.max ∨ ∃ s ∈ entries, s.n ≠ 0 ∧ x ≤ s.x + s.n := by
  induction entries generalizing range with
  | nil => simp
  | cons s entries ih =>
      rw [List.foldl_cons, ih, List.exists_mem_cons_iff, ← or_assoc]
      refine or_congr ?_ Iff.rfl
      rw [InRange.extend]
      split
      next zero => simp [zero]
      next wide =>
        dsimp only
        split
        · constructor
          · exact fun right => .inr ⟨wide, right⟩
          · rintro (before | ⟨-, here⟩) <;> omega
        · constructor
          · exact .inl
          · rintro (before | ⟨-, here⟩) <;> omega

def scanPlaces (fold : UInt8 → UInt8) (document : SearchData) (y height : Int) (text : List UInt8)
    (places : List Nat) : InRange := places.foldl (visitMatch fold document y height text) .start

theorem scan_found (range : InRange) (places : List Nat) :
    (places.foldl (visitMatch fold document y height text) range).found = true ↔
      range.found = true ∨ ∃ k ∈ places, isMatch fold document y height text k = true := by
  induction places generalizing range with
  | nil => simp
  | cons k places ih =>
      rw [List.foldl_cons, ih, List.exists_mem_cons_iff, ← or_assoc]
      refine or_congr ?_ Iff.rfl
      rw [visitMatch]
      split
      next hit => rw [foldl_extend_found]; simp [hit]
      next miss => simp [miss]

theorem scan_min (range : InRange) (places : List Nat) (x : Int) :
    (places.foldl (visitMatch fold document y height text) range).min ≤ x ↔
      range.min ≤ x ∨ ∃ k ∈ places, isMatch fold document y height text k = true ∧
        ∃ s ∈ matchEntries document text k, s.n ≠ 0 ∧ s.x ≤ x := by
  induction places generalizing range with
  | nil => simp
  | cons k places ih =>
      rw [List.foldl_cons, ih, List.exists_mem_cons_iff, ← or_assoc]
      refine or_congr ?_ Iff.rfl
      rw [visitMatch]
      split
      next hit => rw [foldl_extend_min]; simp [hit]
      next miss => simp [miss]

theorem scan_max (range : InRange) (places : List Nat) (x : Int) :
    x ≤ (places.foldl (visitMatch fold document y height text) range).max ↔
      x ≤ range.max ∨ ∃ k ∈ places, isMatch fold document y height text k = true ∧
        ∃ s ∈ matchEntries document text k, s.n ≠ 0 ∧ x ≤ s.x + s.n := by
  induction places generalizing range with
  | nil => simp
  | cons k places ih =>
      rw [List.foldl_cons, ih, List.exists_mem_cons_iff, ← or_assoc]
      refine or_congr ?_ Iff.rfl
      rw [visitMatch]
      split
      next hit => rw [foldl_extend_max]; simp [hit]
      next miss => simp [miss]

end Ranges

/-! The places between the tables of the window. -/

def LineStart (document : SearchData) (line i : Nat) : Prop :=
  BestEntry (·.x) INT_MAX document.search document.nsearch line i

def LineEnd (document : SearchData) (line i : Nat) : Prop :=
  BestEntry (fun s => -(s.x + s.n)) 0 document.search document.nsearch line i

/-- A place is seen when an entry of the first kind is at most the length of the text behind it, and
one of the second kind is not in front of it. -/
def Seen (document : SearchData) (y height : Int) (l k : Nat) : Prop :=
  (∃ line ∈ windowLines document y height, ∃ i, LineStart document line i ∧ i ≤ k + l) ∧
    ∃ line ∈ windowLines document y height, ∃ i, LineEnd document line i ∧ k ≤ i

def rangePlaces (document : SearchData) (y height : Int) (l : Nat) : List Nat :=
  match getRange document y height l with
  | none => []
  | some (s1, s2) => List.range' s1.toNat (s2 - s1 + 1).toNat

theorem isInRange_scan (tolower : UInt8 → UInt8) (caseSensitive : Bool) (document : SearchData)
    (y height : Int) (text : List UInt8) :
    isInRange tolower caseSensitive document y height text =
      scanPlaces (if caseSensitive then id else tolower) document y height
        (text.map (if caseSensitive then id else tolower)) (rangePlaces document y height text.length) := by
  rw [isInRange, rangePlaces]
  cases getRange document y height text.length with
  | none => rfl
  | some range => rfl

theorem exists_filterMap {lines : List Nat} {table : Nat → Option Nat} {P : Nat → Prop} :
    (∃ i ∈ lines.filterMap table, P i) ↔ ∃ line ∈ lines, ∃ i, table line = some i ∧ P i := by
  constructor
  · rintro ⟨i, inside, holds⟩
    obtain ⟨line, member, entry⟩ := List.mem_filterMap.mp inside
    exact ⟨line, member, i, entry, holds⟩
  · rintro ⟨line, member, i, entry, holds⟩
    exact ⟨i, List.mem_filterMap.mpr ⟨line, member, entry⟩, holds⟩

theorem min_le_iff {entries : List Nat} {least : Nat} (found : entries.min? = some least) (bound : Nat) :
    least ≤ bound ↔ ∃ i ∈ entries, i ≤ bound := by
  obtain ⟨inside, below⟩ := List.min?_eq_some_iff.mp found
  constructor
  · exact fun small => ⟨least, inside, small⟩
  · rintro ⟨i, member, small⟩
    exact Nat.le_trans (below i member) small

theorem le_max_iff {entries : List Nat} {greatest : Nat} (found : entries.max? = some greatest) (bound : Nat) :
    bound ≤ greatest ↔ ∃ i ∈ entries, bound ≤ i := by
  obtain ⟨inside, above⟩ := List.max?_eq_some_iff.mp found
  constructor
  · exact fun large => ⟨greatest, inside, large⟩
  · rintro ⟨i, member, large⟩
    exact Nat.le_trans large (above i member)

theorem mem_rangePlaces (document : SearchData) (y height : Int) {l k : Nat} (within : k + l ≤ document.nsearch + 1) :
    k ∈ rangePlaces document y height l ↔
      (∃ line ∈ windowLines document y height, ∃ i, document.slines1 line = some i ∧ i ≤ k + l) ∧
        ∃ line ∈ windowLines document y height, ∃ i, document.slines2 line = some i ∧ k ≤ i := by
  rw [← exists_filterMap, ← exists_filterMap, rangePlaces, getRange]
  dsimp only
  cases first : ((windowLines document y height).filterMap document.slines1).min? with
  | none =>
      rw [List.min?_eq_none_iff] at first
      simp [first]
  | some s1 =>
      cases last : ((windowLines document y height).filterMap document.slines2).max? with
      | none =>
          rw [List.max?_eq_none_iff] at last
          simp [last]
      | some s2 =>
          rw [← min_le_iff first, ← le_max_iff last]
          dsimp only
          split
          next nothing same =>
            split at same
            next empty =>
              simp only [List.not_mem_nil, false_iff, not_and]
              omega
            next => cases same
          next low high same =>
            split at same
            next => cases same
            next some =>
              cases same
              rw [List.mem_range'_1]
              omega

/-! The index of a document. -/

section Index

variable (index : SearchCalls) (documentHeight : Nat)

theorem getSearchData_length :
    (getSearchData index.calls documentHeight).nsearch + 2 = (getSearchData index.calls documentHeight).search.length :=
  trimSearch_endsWith index.endsWith

/-- The entry behind a match is one of the index, whose last blank is not counted. -/
theorem isMatch_within {fold : UInt8 → UInt8} {y height : Int} {text : List UInt8} {k : Nat}
    (hit : isMatch fold (getSearchData index.calls documentHeight) y height text k = true) :
    k + text.length ≤ (getSearchData index.calls documentHeight).nsearch + 1 := by
  have length := getSearchData_length index documentHeight
  rw [isMatch, Bool.and_eq_true] at hit
  cases behind : (getSearchData index.calls documentHeight).search[k + text.length]? with
  | none =>
      rw [behind] at hit
      exact absurd hit.2 Bool.false_ne_true
  | some s =>
      have inside := (List.getElem?_eq_some_iff.mp behind).1
      omega

theorem windowLines_height {document : SearchData} {y height : Int} {line : Nat}
    (member : line ∈ windowLines document y height) : line < document.height :=
  List.mem_range.mp (List.mem_of_mem_filter member)

theorem mem_rangePlaces_seen {y height : Int} {l k : Nat}
    (within : k + l ≤ (getSearchData index.calls documentHeight).nsearch + 1) :
    k ∈ rangePlaces (getSearchData index.calls documentHeight) y height l ↔
      Seen (getSearchData index.calls documentHeight) y height l k := by
  rw [mem_rangePlaces _ y height within, Seen]
  have starts : ∀ line < documentHeight, ∀ i,
      (getSearchData index.calls documentHeight).slines1 line = some i ↔
        LineStart (getSearchData index.calls documentHeight) line i := by
    intro line inside i
    rw [LineStart, ← sortLine_best, getSearchData, sortSrch]
    dsimp only
    rw [if_pos inside]
  have ends : ∀ line < documentHeight, ∀ i,
      (getSearchData index.calls documentHeight).slines2 line = some i ↔
        LineEnd (getSearchData index.calls documentHeight) line i := by
    intro line inside i
    rw [LineEnd, ← sortLine_best, getSearchData, sortSrch]
    dsimp only
    rw [if_pos inside]
  apply and_congr
  · constructor
    · rintro ⟨line, member, i, entry, near⟩
      exact ⟨line, member, i, (starts line (windowLines_height member) i).mp entry, near⟩
    · rintro ⟨line, member, i, entry, near⟩
      exact ⟨line, member, i, (starts line (windowLines_height member) i).mpr entry, near⟩
  · constructor
    · rintro ⟨line, member, i, entry, far⟩
      exact ⟨line, member, i, (ends line (windowLines_height member) i).mp entry, far⟩
    · rintro ⟨line, member, i, entry, far⟩
      exact ⟨line, member, i, (ends line (windowLines_height member) i).mpr entry, far⟩

end Index

/-! What a scan of the whole index says. -/

section Agreement

variable (fold : UInt8 → UInt8) (document : SearchData) (y height : Int) (text : List UInt8)

/-- The result says whether there is a match, and its bounds are the smallest and the largest one
of all matches. -/
structure Agrees (result : InRange) : Prop where
  found : result.found = true ↔ ∃ k, isMatch fold document y height text k = true
  min : ∀ x, result.min ≤ x ↔ INT_MAX ≤ x ∨ ∃ k, isMatch fold document y height text k = true ∧
    ∃ s ∈ matchEntries document text k, s.n ≠ 0 ∧ s.x ≤ x
  max : ∀ x, x ≤ result.max ↔ x ≤ 0 ∨ ∃ k, isMatch fold document y height text k = true ∧
    ∃ s ∈ matchEntries document text k, s.n ≠ 0 ∧ x ≤ s.x + s.n

/-- Some match is seen, and the ones that are seen reach as far as this one. -/
structure Covered (k : Nat) : Prop where
  found : ∃ other, isMatch fold document y height text other = true ∧ Seen document y height text.length other
  left : ∀ s ∈ matchEntries document text k, s.n ≠ 0 → INT_MAX ≤ s.x ∨
    ∃ other, isMatch fold document y height text other = true ∧ Seen document y height text.length other ∧
      ∃ t ∈ matchEntries document text other, t.n ≠ 0 ∧ t.x ≤ s.x
  right : ∀ s ∈ matchEntries document text k, s.n ≠ 0 → s.x + s.n ≤ 0 ∨
    ∃ other, isMatch fold document y height text other = true ∧ Seen document y height text.length other ∧
      ∃ t ∈ matchEntries document text other, t.n ≠ 0 ∧ s.x + s.n ≤ t.x + t.n

variable {fold document y height text}

theorem scanPlaces_agrees_iff {places : List Nat}
    (seen : ∀ k, isMatch fold document y height text k = true →
      (k ∈ places ↔ Seen document y height text.length k)) :
    Agrees fold document y height text (scanPlaces fold document y height text places) ↔
      ∀ k, isMatch fold document y height text k = true → Covered fold document y height text k := by
  have found := @scan_found fold document y height text .start places
  have min := @scan_min fold document y height text .start places
  have max := @scan_max fold document y height text .start places
  constructor
  · intro agrees k hit
    refine ⟨?_, fun s inside wide => ?_, fun s inside wide => ?_⟩
    · rcases found.mp (agrees.found.mpr ⟨k, hit⟩) with nothing | ⟨other, member, same⟩
      · cases nothing
      · exact ⟨other, same, (seen other same).mp member⟩
    · rcases (min s.x).mp ((agrees.min s.x).mpr (.inr ⟨k, hit, s, inside, wide, Int.le_refl _⟩)) with
        large | ⟨other, member, same, entry⟩
      · exact .inl large
      · exact .inr ⟨other, same, (seen other same).mp member, entry⟩
    · rcases (max (s.x + s.n)).mp ((agrees.max (s.x + s.n)).mpr (.inr ⟨k, hit, s, inside, wide, Int.le_refl _⟩)) with
        small | ⟨other, member, same, entry⟩
      · exact .inl small
      · exact .inr ⟨other, same, (seen other same).mp member, entry⟩
  · intro covered
    refine ⟨found.trans ⟨?_, ?_⟩, fun x => (min x).trans ⟨?_, ?_⟩, fun x => (max x).trans ⟨?_, ?_⟩⟩
    · rintro (nothing | ⟨k, -, hit⟩)
      · cases nothing
      · exact ⟨k, hit⟩
    · rintro ⟨k, hit⟩
      obtain ⟨other, same, near⟩ := (covered k hit).found
      exact .inr ⟨other, (seen other same).mpr near, same⟩
    · exact Or.imp_right fun ⟨k, _, hit, entry⟩ => ⟨k, hit, entry⟩
    · rintro (large | ⟨k, hit, s, inside, wide, left⟩)
      · exact .inl large
      · rcases (covered k hit).left s inside wide with large | ⟨other, same, near, t, member, broad, wider⟩
        · exact .inl (Int.le_trans large left)
        · exact .inr ⟨other, (seen other same).mpr near, same, t, member, broad, Int.le_trans wider left⟩
    · exact Or.imp_right fun ⟨k, _, hit, entry⟩ => ⟨k, hit, entry⟩
    · rintro (small | ⟨k, hit, s, inside, wide, right⟩)
      · exact .inl small
      · rcases (covered k hit).right s inside wide with small | ⟨other, same, near, t, member, broad, wider⟩
        · exact .inl (Int.le_trans right small)
        · exact .inr ⟨other, (seen other same).mpr near, same, t, member, broad, Int.le_trans right wider⟩

end Agreement

/-- The search is a scan of the whole index as far as the matches that are not seen add nothing. -/
theorem isInRange_agrees_iff (tolower : UInt8 → UInt8) (caseSensitive : Bool) (index : SearchCalls)
    (documentHeight : Nat) (y height : Int) (text : List UInt8) :
    let fold := if caseSensitive then id else tolower
    let document := getSearchData index.calls documentHeight
    Agrees fold document y height (text.map fold) (isInRange tolower caseSensitive document y height text) ↔
      ∀ k, isMatch fold document y height (text.map fold) k = true →
        Covered fold document y height (text.map fold) k := by
  intro fold document
  rw [isInRange_scan]
  refine scanPlaces_agrees_iff fun k hit => ?_
  have within := isMatch_within index documentHeight hit
  rw [List.length_map] at within ⊢
  exact mem_rangePlaces_seen index documentHeight within

def letterBelow : SearchCalls where
  calls := [⟨97, 0, 0, 1⟩, ⟨98, 1, 0, 1⟩, ⟨32, 2, 0, 0⟩, ⟨99, 0, 1, 1⟩, ⟨32, 1, 1, 0⟩]
  ends := ⟨[⟨97, 0, 0, 1⟩, ⟨98, 1, 0, 1⟩, ⟨32, 2, 0, 0⟩, ⟨99, 0, 1, 1⟩], ⟨32, 1, 1, 0⟩, rfl, rfl⟩
  filled := by decide +kernel

/-- The letter at the end of the index is not found, as the tables are made without it. -/
theorem isInRange_letterBelow_missed :
    ¬ Agrees id (getSearchData letterBelow.calls 2) 1 1 [99]
      (isInRange id true (getSearchData letterBelow.calls 2) 1 1 [99]) := by
  intro agrees
  have hit : isMatch id (getSearchData letterBelow.calls 2) 1 1 [99] 3 = true := by decide +kernel
  have missed : (isInRange id true (getSearchData letterBelow.calls 2) 1 1 [99]).found = false := by decide +kernel
  rw [agrees.found.mpr ⟨3, hit⟩] at missed
  cases missed

end KcnTools.Viewer
