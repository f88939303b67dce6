import KcnTools.Ftp.LineColumns

/-!
The lines of directory listings that are read up to their end and no further. One position behind
the end is read in links without an arrow, and in dates that end with two letters of the month.
-/

namespace KcnTools.FtpLine

open CheckedRead CheckedRead.Read
open Date (Tm isdigit clearTm)
open Ftp (FtpFileType ftpSizeUnknown offtMax)

variable {line : List UInt8} {info : FtpFileInfo} {F : Prop}

theorem eplfFact_safe (inside : info.Inside line) (fact : UInt8) {src pos : Nat} (start : src ≤ line.length)
    (bound : pos ≤ line.length) : (eplfFact line info fact src pos).Meets F fun info => info.Inside line := by
  rw [eplfFact]
  refine Meets.ite (fun _ => ⟨inside.name, inside.symlink⟩) fun _ => ?_
  refine Meets.ite (fun _ => ⟨inside.name, inside.symlink⟩) fun _ => ?_
  refine Meets.ite (fun _ => ?_) fun _ => Meets.ite (fun _ => ?_) fun _ => inside
  · exact (parseFtpNumber_safe bound start _ _).bind fun r _ => ⟨inside.name, inside.symlink⟩
  · exact (parseFtpNumber_safe bound start _ _).bind fun r _ => ⟨inside.name, inside.symlink⟩

theorem eplfFacts_safe (inside : info.Inside line) (src : Nat) :
    (eplfFacts line info src).Safe fun info => info.Inside line := by
  induction left : line.length - src using Nat.strongRecOn generalizing info src with
  | ind left ih =>
      subst left
      rw [eplfFacts]
      split
      next start =>
        have found : (memchr line 44 (line.length - src) src).Meets False _ := memchr_safe 44 (by omega)
        obtain ⟨comma, same, bounds⟩ := found.value
        split
        next wrong => rw [same] at wrong; cases wrong
        next wrong => rw [same] at wrong; cases wrong
        next other right =>
          rw [same] at right
          cases right
          have pos : src ≤ comma.getD line.length ∧ comma.getD line.length ≤ line.length := by
            cases comma with
            | none => exact ⟨Nat.le_of_lt start, Nat.le_refl _⟩
            | some i =>
                have := bounds i rfl
                exact ⟨this.1, by rw [Option.getD_some]; omega⟩
          refine (element_safe start).bind fun fact _ => Meets.ite (fun named => ⟨?_, inside.symlink⟩) fun _ => ?_
          · rintro slice ⟨⟩
            constructor
            · show 0 ≤ (line.length : Int) - (src + 1 : Nat)
              omega
            · show ((src + 1 : Nat) : Int) + ((line.length : Int) - (src + 1 : Nat)) ≤ line.length
              omega
          · refine (eplfFact_safe inside fact start pos.2).bind fun info within => ?_
            exact ih (line.length - (comma.getD line.length + 1)) (by omega) within _ rfl
      next => trivial

theorem vmsTrailer_safe (inside : info.Inside line) {src : Nat} (start : src ≤ line.length) :
    (vmsTrailer line info src).Safe fun info => info.Inside line := by
  rw [vmsTrailer]
  refine (skipSpaceEnd_safe start).bind fun src bounds => ?_
  refine (skipNonspaceEnd_safe bounds.2).bind fun src bounds => ?_
  refine (skipSpaceEnd_safe bounds.2).bind fun src bounds => Meets.ite (fun _ => inside) fun more => ?_
  refine (memchr_safe 40 (by omega)).bind fun left found => ?_
  cases left with
  | none => exact inside
  | some i =>
      have opened := found i rfl
      refine (memchr_safe 41 (by omega)).bind fun right found => ?_
      cases right with
      | none => exact inside
      | some j =>
          have closed := found j rfl
          exact (elements_safe (by omega)).bind fun permissions _ => ⟨inside.name, inside.symlink⟩

def vmsDate (line : List UInt8) : List UInt8 := nextColumn (nextColumn (line.dropWhile fun c => decide (c ≠ 59)))

theorem monthCut_nil : ¬ MonthCut [] := by
  rintro (⟨⟨a, b, same, -⟩, -⟩ | ⟨day, seps, month, same, ⟨length, -⟩, -⟩)
  · cases same
  · rw [List.append_assoc, eq_comm, List.append_eq_nil_iff] at same
    rw [same.1] at length
    rcases length with one | two <;> contradiction

/-- The extension is read when there are four characters in front of the semicolon. -/
theorem vmsExtension_value {pos : Nat} (bound : pos ≤ line.length) :
    ∃ extension, vmsExtension line pos = value extension ∧ (extension ≠ [] → 4 < pos) := by
  rw [vmsExtension]
  split
  next long => exact ⟨_, by rw [elements, if_pos (by omega)], fun _ => long⟩
  next short => exact ⟨[], rfl, fun filled => absurd rfl filled⟩

theorem parseFtpVmsResponse_reads (inside : info.Inside line) (semicolon : 59 ∈ line) :
    (MonthCut (vmsDate line) → parseFtpVmsResponse line info = beyond) ∧
      (¬ MonthCut (vmsDate line) → (parseFtpVmsResponse line info).Safe fun info => info.Inside line) := by
  obtain ⟨before, after, same, clean⟩ := List.eq_append_cons_of_mem semicolon
  have length := congrArg List.length same
  rw [List.length_append, List.length_cons] at length
  have found : memchr line 59 line.length 0 = value (some (0 + before.length)) :=
    memchr_found same clean (by omega)
  have text : line.drop before.length = line.dropWhile fun c => decide (c ≠ 59) := by
    have other : ∀ c ∈ before, decide (c ≠ 59) = true := fun c member =>
      decide_eq_true fun semicolon => clean (semicolon ▸ member)
    rw [same, List.drop_left, List.dropWhile_append_of_pos other, List.dropWhile_cons_of_neg (by simp)]
  have within : before.length ≤ line.length := by omega
  obtain ⟨extension, read, long⟩ := vmsExtension_value within
  obtain ⟨pos, column, -, bound, behind, -⟩ := skipNonspaceEnd_drop within
  obtain ⟨src, blanks, -, start, size⟩ := skipSpaceEnd_drop bound
  have sizeText : line.drop src = nextColumn (line.dropWhile fun c => decide (c ≠ 59)) := by
    rw [size, behind, text]
    rfl
  rw [Nat.zero_add] at found
  rw [parseFtpVmsResponse, found, value_bind]
  dsimp only
  rw [read, value_bind, column, value_bind, blanks, value_bind, vmsDate, ← sizeText]
  by_cases more : line.length ≤ src
  · rw [if_pos more, List.drop_eq_nil_iff.mpr more]
    exact ⟨fun cut => absurd cut monthCut_nil, fun _ => trivial⟩
  · obtain ⟨pos, column, -, bound, behind, -⟩ := skipNonspaceEnd_drop start
    obtain ⟨date, blanks, -, start, here⟩ := skipSpaceEnd_drop bound
    have dateText : line.drop date = nextColumn (line.drop src) := by
      rw [here, behind]
      rfl
    rw [if_neg more, column, value_bind, blanks, value_bind, ← dateText]
    by_cases more : line.length ≤ date
    · rw [if_pos more, List.drop_eq_nil_iff.mpr more]
      exact ⟨fun cut => absurd cut monthCut_nil, fun _ => trivial⟩
    · rw [if_neg more]
      refine ⟨fun cut => ?_, fun uncut => ?_⟩
      · rw [parseDate_beyond start cut]
        rfl
      · refine (parseDate_safe (Nat.not_le.mp more) uncut).bind fun r bound => Meets.ite (fun _ => trivial) fun _ => ?_
        refine vmsTrailer_safe ⟨?_, ?_⟩ bound
        · split
          next directory =>
            have := long (directory ▸ nofun)
            rintro slice ⟨⟩
            constructor
            · show 0 ≤ (before.length : Int) - 4
              omega
            · show ((0 : Nat) : Int) + ((before.length : Int) - 4) ≤ line.length
              omega
          next plainfile =>
            rintro slice ⟨⟩
            constructor
            · show 0 ≤ (before.length : Int)
              omega
            · show ((0 : Nat) : Int) + (before.length : Int) ≤ line.length
              omega
        · split
          · exact inside.symlink
          · exact inside.symlink

theorem winntHyphen_safe (src : Nat) : (winntHyphen line src).Safe (· ≤ line.length) := by
  rw [winntHyphen]
  refine Meets.ite (fun _ => trivial) fun near => (expect_safe (by omega)).bind fun _ _ => ?_
  show src + 1 ≤ line.length
  omega

theorem winntKind_safe (inside : info.Inside line) {src : Nat} (start : src < line.length) :
    (winntKind line info src).Safe fun info => info.Inside line := by
  rw [winntKind]
  refine (element_safe start).bind fun c _ => Meets.ite (fun _ => ⟨inside.name, inside.symlink⟩) fun _ => ?_
  refine Meets.ite (fun _ => ?_) fun _ => ⟨inside.name, inside.symlink⟩
  exact (parseFtpNumber_safe (Nat.le_refl _) (Nat.le_of_lt start) _ _).bind fun r _ => ⟨inside.name, inside.symlink⟩

theorem parseFtpWinntResponse_safe (inside : info.Inside line) :
    (parseFtpWinntResponse line info).Safe fun info => info.Inside line := by
  rw [parseFtpWinntResponse]
  refine Meets.ite (fun _ => trivial) fun long => ?_
  refine (parseFtpNumber_safe (Nat.le_refl _) (Nat.zero_le _) 1 12).bind fun r _ => ?_
  refine (winntHyphen_safe r.2).bind fun src bound => ?_
  refine (parseDay_safe (Nat.le_refl _) bound).bind fun r _ => ?_
  refine (winntHyphen_safe r.2).bind fun src bound => ?_
  refine (parseYear_safe (Nat.le_refl _) bound).bind fun r bound => Meets.ite (fun _ => trivial) fun _ => ?_
  refine (skipSpaceEnd_safe bound).bind fun src bounds => Meets.ite (fun _ => trivial) fun _ => ?_
  refine (parseTime_safe (Nat.le_refl _) _ src).bind fun r bound => ?_
  refine (skipNonspaceEnd_safe bound).bind fun src bounds => ?_
  refine (skipSpaceEnd_safe bounds.2).bind fun src bounds => Meets.ite (fun _ => trivial) fun more => ?_
  refine winntKind_safe ?_ (Nat.not_le.mp more)
  refine ⟨?_, inside.symlink⟩
  rintro slice ⟨⟩
  constructor
  · show 0 ≤ (line.length : Int) - 39
    omega
  · show ((39 : Nat) : Int) + ((line.length : Int) - 39) ≤ line.length
    omega

def DateCut (line : List UInt8) : Prop :=
  (∃ c ∈ line.head?, c ≠ 43 ∧ c ∉ ([98, 99, 100, 108, 112, 115, 45] : List UInt8)) ∧ 59 ∈ line ∧
    MonthCut (vmsDate line)

def StaysInside (line : List UInt8) (r : Read FtpFileInfo) : Prop := r.Safe fun info => info.Inside line

theorem initFtpFileInfo_inside : initFtpFileInfo.Inside line := ⟨nofun, nofun⟩

/-- A line is parsed inside its bounds unless a link or a date of it is cut off. -/
theorem parseFtpFileInfo_inside_iff (now : Tm) (line : List UInt8) :
    StaysInside line (parseFtpFileInfo line now initFtpFileInfo) ↔ ¬ (SymlinkCut line ∨ DateCut line) := by
  have inside : initFtpFileInfo.Inside line := initFtpFileInfo_inside
  rw [parseFtpFileInfo, StaysInside]
  cases line with
  | nil =>
      refine iff_of_true trivial ?_
      rintro (⟨first, -⟩ | ⟨⟨c, first, -⟩, -⟩)
      · cases first
      · cases first
  | cons c rest =>
      rw [if_neg (by simp), element_drop (List.drop_zero (l := c :: rest)), value_bind]
      have filled : 0 < (c :: rest).length := Nat.succ_pos rest.length
      have unix := parseFtpUnixResponse_reads now filled inside rfl
      split
      next eplf =>
        refine iff_of_true (eplfFacts_safe inside 1) ?_
        rintro (⟨first, -⟩ | ⟨⟨d, first, other, -⟩, -⟩)
        · cases first
          exact absurd eplf (by decide)
        · cases first
          exact other eplf
      next noEplf =>
        split
        next letter =>
          have uncut : ¬ DateCut (c :: rest) := by
            rintro ⟨⟨d, first, -, other⟩, -⟩
            cases first
            exact other letter
          rw [or_iff_left uncut]
          by_cases cut : SymlinkCut (c :: rest)
          · rw [unix.1 cut]
            exact iff_of_false id (not_not_intro cut)
          · exact iff_of_true (unix.2 cut) cut
        next noLetter =>
          have noLink : ¬ SymlinkCut (c :: rest) := by
            rintro ⟨first, -⟩
            cases first
            exact noLetter (by decide)
          rw [or_iff_right noLink]
          by_cases semicolon : 59 ∈ c :: rest
          · obtain ⟨before, after, same, clean⟩ := List.eq_append_cons_of_mem semicolon
            have found : memchr (c :: rest) 59 (c :: rest).length 0 = value (some (0 + before.length)) :=
              memchr_found same clean (by rw [same, List.length_append, List.length_cons]; omega)
            rw [found, value_bind]
            have cut : DateCut (c :: rest) ↔ MonthCut (vmsDate (c :: rest)) := by
              constructor
              · exact fun cut => cut.2.2
              · exact fun cut => ⟨⟨c, rfl, noEplf, noLetter⟩, semicolon, cut⟩
            have vms := parseFtpVmsResponse_reads inside semicolon
            dsimp only
            rw [cut]
            by_cases month : MonthCut (vmsDate (c :: rest))
            · rw [vms.1 month]
              exact iff_of_false id (not_not_intro month)
            · exact iff_of_true (vms.2 month) month
          · refine iff_of_true ?_ fun cut => semicolon cut.2.1
            rw [memchr_missing (by omega) semicolon, value_bind]
            exact Meets.ite (fun _ => parseFtpWinntResponse_safe inside) fun _ => unix.2 noLink

/-- `A;1 1 Ja`: the third letter of the month is looked for behind the line. -/
theorem parseFtpFileInfo_twoLetters :
    ¬ StaysInside [65, 59, 49, 32, 49, 32, 74, 97]
      (parseFtpFileInfo [65, 59, 49, 32, 49, 32, 74, 97] clearTm initFtpFileInfo) := by
  have outside : parseFtpFileInfo [65, 59, 49, 32, 49, 32, 74, 97] clearTm initFtpFileInfo = beyond := by rfl
  rw [outside]
  exact id

end KcnTools.FtpLine
