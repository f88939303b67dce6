import Mathlib.Data.List.Basic

/-! The quoting rules of the POSIX shell as a reader of bytes: backslash, single-quotes and
double-quotes. What a byte stands for depends on the quoting in which it is read. -/

namespace KcnTools.ShellQuoting

inductive Quoting
  | unquoted
  /-- behind a backslash outside of quotes -/
  | unquotedEscape
  | single
  | double
  /-- behind a backslash in double-quotes -/
  | doubleEscape
  deriving DecidableEq

inductive Item
  | literal (c : UInt8)
  /-- a byte with a meaning of its own: an operator, a blank, an expansion or a pattern -/
  | special (c : UInt8)
  deriving DecidableEq

def specialBytes : List UInt8 :=
  [124, 38, 59, 60, 62, 40, 41, 36, 96, 32, 9, 10, 42, 63, 91, 93, 94, 45, 33, 35, 126, 61, 37, 123, 44, 125]

def next : Quoting → UInt8 → List Item × Quoting
  | .unquoted, c =>
      if c = 39 then ([], .single)
      else if c = 34 then ([], .double)
      else if c = 92 then ([], .unquotedEscape)
      else if c ∈ specialBytes then ([.special c], .unquoted)
      else ([.literal c], .unquoted)
  -- a backslash and a newline behind it are removed
  | .unquotedEscape, c => (if c = 10 then [] else [.literal c], .unquoted)
  | .single, c => if c = 39 then ([], .unquoted) else ([.literal c], .single)
  | .double, c =>
      if c = 34 then ([], .unquoted)
      else if c = 92 then ([], .doubleEscape)
      else if c = 36 ∨ c = 96 then ([.special c], .double)
      else ([.literal c], .double)
  | .doubleEscape, c =>
      if c = 10 then ([], .double)
      else if c = 36 ∨ c = 96 ∨ c = 34 ∨ c = 92 then ([.literal c], .double)
      else ([.literal 92, .literal c], .double)

def read (quoting : Quoting) : List UInt8 → List Item × Quoting
  | [] => ([], quoting)
  | c :: text =>
      let here := next quoting c
      let later := read here.2 text
      (here.1 ++ later.1, later.2)

@[simp] theorem read_nil (quoting : Quoting) : read quoting [] = ([], quoting) := rfl

theorem read_cons (quoting : Quoting) (c : UInt8) (text : List UInt8) :
    read quoting (c :: text) =
      ((next quoting c).1 ++ (read (next quoting c).2 text).1, (read (next quoting c).2 text).2) := rfl

theorem read_append (quoting : Quoting) (first second : List UInt8) :
    read quoting (first ++ second) =
      ((read quoting first).1 ++ (read (read quoting first).2 second).1, (read (read quoting first).2 second).2) := by
  induction first generalizing quoting with
  | nil => rfl
  | cons c first ih => rw [List.cons_append, read_cons, ih, read_cons, List.append_assoc]

/-- The text stands for the bytes of `value` and leaves the shell in the quoting it is read in. -/
def StandsFor (quoting : Quoting) (text value : List UInt8) : Prop :=
  read quoting text = (value.map .literal, quoting)

instance (quoting : Quoting) (text value : List UInt8) : Decidable (StandsFor quoting text value) :=
  inferInstanceAs (Decidable (_ = _))

theorem StandsFor.append {quoting : Quoting} {text other value rest : List UInt8} (first : StandsFor quoting text value)
    (second : StandsFor quoting other rest) : StandsFor quoting (text ++ other) (value ++ rest) := by
  rw [StandsFor, read_append, first, List.map_append]
  dsimp only
  rw [second]

/-- Bytes quoted one at a time stand for the value when each quoted byte stands for itself. -/
theorem standsFor_flatMap {quoting : Quoting} {quote : UInt8 → List UInt8} {value : List UInt8}
    (each : ∀ c ∈ value, StandsFor quoting (quote c) [c]) : StandsFor quoting (value.flatMap quote) value := by
  induction value with
  | nil => rfl
  | cons c value ih =>
      rw [List.forall_mem_cons] at each
      rw [List.flatMap_cons]
      exact each.1.append (ih each.2)

section Bytes

variable {c : UInt8}

theorem standsFor_single (plain : c ≠ 39) : StandsFor .single [c] [c] := by
  rw [StandsFor, read_cons, next, if_neg plain]
  rfl

theorem standsFor_double (quote : c ≠ 34) (backslash : c ≠ 92) (plain : ¬(c = 36 ∨ c = 96)) :
    StandsFor .double [c] [c] := by
  rw [StandsFor, read_cons, next, if_neg quote, if_neg backslash, if_neg plain]
  rfl

theorem standsFor_doubleEscape (escaped : c = 36 ∨ c = 96 ∨ c = 34 ∨ c = 92) : StandsFor .double [92, c] [c] := by
  rcases escaped with rfl | rfl | rfl | rfl <;> decide

theorem standsFor_unquoted (single : c ≠ 39) (double : c ≠ 34) (backslash : c ≠ 92) (plain : c ∉ specialBytes) :
    StandsFor .unquoted [c] [c] := by
  rw [StandsFor, read_cons, next, if_neg single, if_neg double, if_neg backslash, if_neg plain]
  rfl

theorem standsFor_unquotedEscape (line : c ≠ 10) : StandsFor .unquoted [92, c] [c] := by
  have opened : next .unquoted 92 = ([], .unquotedEscape) := by decide
  rw [StandsFor, read_cons, opened, read_cons, next, if_neg line]
  rfl

end Bytes

end KcnTools.ShellQuoting
