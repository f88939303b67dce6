import Mathlib.Logic.Function.Basic
import KcnTools.Libwc.CharacterSet

/-!
Escape sequences of ISO 2022: which character set a sequence designates to which of G0 to G3. A text
is a list of bytes, with the pointer as an offset from ESC.
-/

namespace KcnTools.Libwc

structure IsoStatus where
  design : Fin 4 → Nat
  ss : Nat
  gl : Nat
  gr : Nat
  state : Nat

/-- What `state` is in the loop. In front of the final byte it is `cs` too. -/
inductive EscState where
  | esc | mbcs | cs94 | cs96 | cs94w | cs96w | cs942 | c0 | cswsr | cswosr
  deriving DecidableEq

inductive Shift where
  | ss2 | ss3 | ls2 | ls3 | ls1r | ls2r | ls3r
  deriving DecidableEq

def Shift.byte : Shift → Nat
  | .ss2 => 0x4E
  | .ss3 => 0x4F
  | .ls2 => 0x6E
  | .ls3 => 0x6F
  | .ls1r => 0x7E
  | .ls2r => 0x7D
  | .ls3r => 0x7C

def Shift.apply (st : IsoStatus) : Shift → IsoStatus
  | .ss2 => { st with ss := 2 }
  | .ss3 => { st with ss := 3 }
  | .ls2 => { st with gl := 2 }
  | .ls3 => { st with gl := 3 }
  | .ls1r => { st with gr := 1 }
  | .ls2r => { st with gr := 2 }
  | .ls3r => { st with gr := 3 }

def shifts : List Shift := [.ss2, .ss3, .ls2, .ls3, .ls1r, .ls2r, .ls3r]

/-- What the switch does with a byte: the loop goes on, returns, or ends with the final byte. -/
inductive EscStep where
  | next (state : EscState) (g : Fin 4)
  | shift (shift : Shift)
  | last (cs : EscState) (g : Fin 4)
  | fail

def gOf (byte : Nat) : Fin 4 := Fin.ofNat 4 byte

def escByte (state : EscState) (byte : Nat) (g : Fin 4) : EscStep :=
  match state with
  | .esc =>
      if byte = 0x24 then .next .mbcs g
      else if 0x28 ≤ byte ∧ byte ≤ 0x2B then .next .cs94 (gOf byte)
      else if 0x2C ≤ byte ∧ byte ≤ 0x2F then .next .cs96 (gOf byte)
      else if byte = 0x21 ∨ byte = 0x22 ∨ byte = 0x26 then .next .c0 g
      else if byte = 0x25 then .next .cswsr g
      else
        match shifts.find? fun shift => decide (shift.byte = byte) with
        | some shift => .shift shift
        | none => .fail
  | .mbcs =>
      if byte = 0x40 ∨ byte = 0x42 ∨ byte = 0x41 then .last .cs94w 0
      else if 0x28 ≤ byte ∧ byte ≤ 0x2B then .next .cs94w (gOf byte)
      else if 0x2C ≤ byte ∧ byte ≤ 0x2F then .next .cs96w (gOf byte)
      else .fail
  | .cs94 => if byte = 0x21 then .next .cs942 (gOf byte) else .last .cs94 g
  | .cswsr => if byte = 0x2F then .next .cswosr g else .last .cswsr g
  | state => .last state g

def setCs94 (final : Nat) : Nat := typeCs94 ||| final
def setCs96w (final : Nat) : Nat := typeCs96w ||| final
def setCs942 (final : Nat) : Nat := typeCs942 ||| final

def isoNostate : Nat := 0
def isoCswsr : Nat := 0x10

def IsoStatus.designate (st : IsoStatus) (g : Fin 4) (ccs : Nat) : IsoStatus :=
  { st with design := Function.update st.design g ccs }

def escFinal (st : IsoStatus) (cs : EscState) (g : Fin 4) (f : Nat) : IsoStatus :=
  match cs with
  | .cs94 => st.designate g (setCs94 f)
  | .cs94w => st.designate g (setCs94w f)
  | .cs96 => st.designate g (setCs96 f)
  | .cs96w => st.designate g (setCs96w f)
  | .cs942 => st.designate g (setCs942 f)
  | .cswsr => { st with state := if f = 0x40 then isoNostate else isoCswsr }
  | _ => st

/-- What is returned, where the pointer is then, and the status. A byte 0 ends the text. -/
def escLoop (st : IsoStatus) : List Nat → EscState → Fin 4 → Nat → Nat × Nat × IsoStatus
  | [], _, _, _ => (0, 0, st)
  | byte :: rest, state, g, p =>
      if byte = 0 then (0, 0, st)
      else
        match escByte state byte g with
        | .next state g => escLoop st rest state g (p + 1)
        | .shift shift => (1, p, shift.apply st)
        | .last cs g => if byte < 0x40 ∨ 0x7E < byte then (0, 0, st) else (1, p, escFinal st cs g byte)
        | .fail => (0, 0, st)

def parseIso2022Esc (text : List Nat) (st : IsoStatus) : Nat × Nat × IsoStatus :=
  match text with
  | 0x1B :: rest => escLoop st rest .esc 0 1
  | _ => (0, 0, st)

/-! The sequences. -/

def FinalByte (f : Nat) : Prop := 0x40 ≤ f ∧ f ≤ 0x7E

inductive Designates : List Nat → Fin 4 → Nat → Prop
  | cs94 {g : Fin 4} {f : Nat} : FinalByte f → Designates [0x28 + g, f] g (setCs94 f)
  | cs96 {g : Fin 4} {f : Nat} : FinalByte f → Designates [0x2C + g, f] g (setCs96 f)
  | cs942 {g : Fin 4} {f : Nat} : FinalByte f → Designates [0x28 + g, 0x21, f] g (setCs942 f)
  | early {f : Nat} : f = 0x40 ∨ f = 0x41 ∨ f = 0x42 → Designates [0x24, f] 0 (setCs94w f)
  | cs94w {g : Fin 4} {f : Nat} : FinalByte f → Designates [0x24, 0x28 + g, f] g (setCs94w f)
  | cs96w {g : Fin 4} {f : Nat} : FinalByte f → Designates [0x24, 0x2C + g, f] g (setCs96w f)

inductive Passes : List Nat → (IsoStatus → IsoStatus) → Prop
  | shift (shift : Shift) : Passes [shift.byte] fun st => shift.apply st
  | control {c f : Nat} : c = 0x21 ∨ c = 0x22 ∨ c = 0x26 → FinalByte f → Passes [c, f] id
  | coding {f : Nat} : FinalByte f →
      Passes [0x25, f] fun st => { st with state := if f = 0x40 then isoNostate else isoCswsr }
  | codingFixed {f : Nat} : FinalByte f → Passes [0x25, 0x2F, f] id

theorem Passes.design {seq : List Nat} {effect : IsoStatus → IsoStatus} (passes : Passes seq effect) (st : IsoStatus) :
    (effect st).design = st.design := by
  cases passes with
  | shift shift => cases shift <;> rfl
  | control => rfl
  | coding => rfl
  | codingFixed => rfl

section Loop

variable {st : IsoStatus} {g : Fin 4} {p : Nat} {rest : List Nat}

theorem gOf_add {base : Nat} (multiple : base % 4 = 0) (g : Fin 4) : gOf (base + g) = g := by
  refine Fin.ext ?_
  rw [gOf, Fin.val_ofNat]
  omega

theorem escLoop_next {state next : EscState} {byte : Nat} {g' : Fin 4} (some : byte ≠ 0)
    (step : escByte state byte g = .next next g') : escLoop st (byte :: rest) state g p = escLoop st rest next g' (p + 1) := by
  rw [escLoop, if_neg some, step]

theorem escLoop_last {state cs : EscState} {f : Nat} {g' : Fin 4} (final : FinalByte f)
    (step : escByte state f g = .last cs g') : escLoop st (f :: rest) state g p = (1, p, escFinal st cs g' f) := by
  obtain ⟨low, high⟩ := final
  rw [escLoop, if_neg (by omega), step]
  exact if_neg (by omega)

theorem escByte_cs94_g (g g' : Fin 4) : escByte .esc (0x28 + g) g' = .next .cs94 g := by
  have small := g.isLt
  rw [escByte, gOf_add (by omega), if_neg (by omega), if_pos (by omega)]

theorem escByte_cs96_g (g g' : Fin 4) : escByte .esc (0x2C + g) g' = .next .cs96 g := by
  have small := g.isLt
  rw [escByte, @gOf_add 0x2C (by omega), if_neg (by omega), if_neg (by omega), if_pos (by omega)]

theorem escByte_cs94w_g (g g' : Fin 4) : escByte .mbcs (0x28 + g) g' = .next .cs94w g := by
  have small := g.isLt
  rw [escByte, gOf_add (by omega), if_neg (by omega), if_pos (by omega)]

theorem escByte_cs96w_g (g g' : Fin 4) : escByte .mbcs (0x2C + g) g' = .next .cs96w g := by
  have small := g.isLt
  rw [escByte, @gOf_add 0x2C (by omega), if_neg (by omega), if_neg (by omega), if_pos (by omega)]

theorem escByte_early {f : Nat} (which : f = 0x40 ∨ f = 0x41 ∨ f = 0x42) : escByte .mbcs f g = .last .cs94w 0 :=
  if_pos (by omega)

theorem escByte_final {f : Nat} (final : FinalByte f) :
    escByte .cs94 f g = .last .cs94 g ∧ escByte .cswsr f g = .last .cswsr g := by
  rw [FinalByte] at final
  exact ⟨if_neg (by omega), if_neg (by omega)⟩

/-- A sequence that designates a set does so, where the G number is the one of the first byte. -/
theorem escLoop_designates {seq : List Nat} {ccs : Nat} (designates : Designates seq g ccs)
    (kept : seq[1]? = some 0x21 → g = 1) :
    escLoop st (seq ++ rest) .esc 0 1 = (1, seq.length, st.designate g ccs) := by
  cases designates with
  | cs94 final =>
      rw [List.cons_append, List.cons_append, escLoop_next (by omega) (escByte_cs94_g g 0),
        escLoop_last final (escByte_final final).1]
      rfl
  | cs96 final =>
      rw [List.cons_append, List.cons_append, escLoop_next (by omega) (escByte_cs96_g g 0), escLoop_last final rfl]
      rfl
  | cs942 final =>
      obtain rfl := kept rfl
      rw [List.cons_append, List.cons_append, List.cons_append, escLoop_next (by omega) (escByte_cs94_g 1 0),
        escLoop_next (by omega) rfl, escLoop_last final rfl]
      rfl
  | early which =>
      have final := which
      rw [List.cons_append, List.cons_append, escLoop_next (by omega) rfl,
        escLoop_last (by rw [FinalByte]; omega) (escByte_early which)]
      rfl
  | cs94w final =>
      rw [List.cons_append, List.cons_append, List.cons_append, escLoop_next (by omega) rfl,
        escLoop_next (by omega) (escByte_cs94w_g g 0), escLoop_last final rfl]
      rfl
  | cs96w final =>
      rw [List.cons_append, List.cons_append, List.cons_append, escLoop_next (by omega) rfl,
        escLoop_next (by omega) (escByte_cs96w_g g 0), escLoop_last final rfl]
      rfl

theorem escLoop_passes {seq : List Nat} {effect : IsoStatus → IsoStatus} (passes : Passes seq effect) :
    escLoop st (seq ++ rest) .esc 0 1 = (1, seq.length, effect st) := by
  cases passes with
  | shift shift => cases shift <;> rfl
  | control which final =>
      have control : ∀ c, c = 0x21 ∨ c = 0x22 ∨ c = 0x26 → escByte .esc c 0 = .next .c0 0 := by
        rintro c (rfl | rfl | rfl) <;> rfl
      rw [List.cons_append, List.cons_append, escLoop_next (by omega) (control _ which), escLoop_last final rfl]
      rfl
  | coding final =>
      rw [List.cons_append, List.cons_append, escLoop_next (by omega) rfl, escLoop_last final (escByte_final final).2]
      rfl
  | codingFixed final =>
      rw [List.cons_append, List.cons_append, List.cons_append, escLoop_next (by omega) rfl,
        escLoop_next (by omega) rfl, escLoop_last final rfl]
      rfl

/-! Everything else is refused. -/

def Recognised (text : List Nat) : Prop :=
  ∃ seq rest, text = seq ++ rest ∧ ((∃ g ccs, Designates seq g ccs) ∨ ∃ effect, Passes seq effect)

theorem escLoop_ends {state : EscState} (text : List Nat) (ends : ∀ byte, escByte state byte g = .last state g) :
    escLoop st text state g p = (0, 0, st) ∨ ∃ f rest, text = f :: rest ∧ FinalByte f := by
  cases text with
  | nil => exact .inl rfl
  | cons byte rest =>
      rw [escLoop, ends]
      by_cases final : FinalByte byte
      · exact .inr ⟨byte, rest, rfl, final⟩
      · rw [FinalByte] at final
        refine .inl ?_
        split
        · rfl
        · exact if_pos (by omega)

theorem escLoop_cs94_ends (text : List Nat) :
    escLoop st text .cs94 g p = (0, 0, st) ∨ (∃ f rest, text = f :: rest ∧ FinalByte f) ∨
      ∃ f rest, text = 0x21 :: f :: rest ∧ FinalByte f := by
  cases text with
  | nil => exact .inl rfl
  | cons byte rest =>
      by_cases second : byte = 0x21
      · subst second
        rcases @escLoop_ends st (gOf 0x21) (p + 1) .cs942 rest fun _ => rfl with refused | ⟨f, rest', rfl, final⟩
        · exact .inl ((escLoop_next (by omega) rfl).trans refused)
        · exact .inr (.inr ⟨f, rest', rfl, final⟩)
      · have last : escByte .cs94 byte g = .last .cs94 g := if_neg second
        by_cases final : FinalByte byte
        · exact .inr (.inl ⟨byte, rest, rfl, final⟩)
        · rw [FinalByte] at final
          rw [escLoop, last]
          refine .inl ?_
          split
          · rfl
          · exact if_pos (by omega)

theorem escLoop_cswsr_ends (text : List Nat) :
    escLoop st text .cswsr g p = (0, 0, st) ∨ (∃ f rest, text = f :: rest ∧ FinalByte f) ∨
      ∃ f rest, text = 0x2F :: f :: rest ∧ FinalByte f := by
  cases text with
  | nil => exact .inl rfl
  | cons byte rest =>
      by_cases second : byte = 0x2F
      · subst second
        rcases @escLoop_ends st g (p + 1) .cswosr rest fun _ => rfl with refused | ⟨f, rest', rfl, final⟩
        · exact .inl ((escLoop_next (by omega) rfl).trans refused)
        · exact .inr (.inr ⟨f, rest', rfl, final⟩)
      · have last : escByte .cswsr byte g = .last .cswsr g := if_neg second
        by_cases final : FinalByte byte
        · exact .inr (.inl ⟨byte, rest, rfl, final⟩)
        · rw [FinalByte] at final
          rw [escLoop, last]
          refine .inl ?_
          split
          · rfl
          · exact if_pos (by omega)

theorem exists_g {base byte : Nat} (low : base ≤ byte) (high : byte ≤ base + 3) : ∃ g : Fin 4, byte = base + g :=
  ⟨⟨byte - base, by omega⟩, by dsimp only; omega⟩

theorem escLoop_mbcs_ends (text : List Nat) :
    escLoop st text .mbcs g p = (0, 0, st) ∨ (∃ f rest, text = f :: rest ∧ (f = 0x40 ∨ f = 0x41 ∨ f = 0x42)) ∨
      ∃ (g : Fin 4) (f : Nat) (rest : List Nat), (text = (0x28 + g.val) :: f :: rest ∨ text = (0x2C + g.val) :: f :: rest) ∧
        FinalByte f := by
  cases text with
  | nil => exact .inl rfl
  | cons byte rest =>
      by_cases early : byte = 0x40 ∨ byte = 0x41 ∨ byte = 0x42
      · exact .inr (.inl ⟨byte, rest, rfl, early⟩)
      · by_cases cs94 : 0x28 ≤ byte ∧ byte ≤ 0x2B
        · obtain ⟨h, rfl⟩ := exists_g cs94.1 cs94.2
          rcases @escLoop_ends st h (p + 1) .cs94w rest fun _ => rfl with refused | ⟨f, rest', rfl, final⟩
          · exact .inl ((escLoop_next (by omega) (escByte_cs94w_g h g)).trans refused)
          · exact .inr (.inr ⟨h, f, rest', .inl rfl, final⟩)
        · by_cases cs96 : 0x2C ≤ byte ∧ byte ≤ 0x2F
          · obtain ⟨h, rfl⟩ := exists_g cs96.1 cs96.2
            rcases @escLoop_ends st h (p + 1) .cs96w rest fun _ => rfl with refused | ⟨f, rest', rfl, final⟩
            · exact .inl ((escLoop_next (by omega) (escByte_cs96w_g h g)).trans refused)
            · exact .inr (.inr ⟨h, f, rest', .inr rfl, final⟩)
          · have fails : escByte .mbcs byte g = .fail := by
              rw [escByte, if_neg (by omega), if_neg cs94, if_neg cs96]
            refine .inl ?_
            rw [escLoop, fails]
            exact ite_self _

theorem escLoop_refused {text : List Nat} (other : ¬ Recognised text) : escLoop st text .esc 0 1 = (0, 0, st) := by
  cases text with
  | nil => rfl
  | cons byte rest =>
      by_cases mbcs : byte = 0x24
      · subst mbcs
        refine (escLoop_next (by omega) rfl).trans ?_
        rcases @escLoop_mbcs_ends st 0 (1 + 1) rest with refused | ⟨f, rest', rfl, early⟩ | ⟨g, f, rest', rfl | rfl, final⟩
        · exact refused
        · exact absurd ⟨[0x24, f], rest', rfl, .inl ⟨_, _, .early early⟩⟩ other
        · exact absurd ⟨[0x24, 0x28 + g, f], rest', rfl, .inl ⟨_, _, .cs94w final⟩⟩ other
        · exact absurd ⟨[0x24, 0x2C + g, f], rest', rfl, .inl ⟨_, _, .cs96w final⟩⟩ other
      · by_cases cs94 : 0x28 ≤ byte ∧ byte ≤ 0x2B
        · obtain ⟨g, rfl⟩ := exists_g cs94.1 cs94.2
          refine (escLoop_next (by omega) (escByte_cs94_g g 0)).trans ?_
          rcases @escLoop_cs94_ends st g (1 + 1) rest with refused | ⟨f, rest', rfl, final⟩ | ⟨f, rest', rfl, final⟩
          · exact refused
          · exact absurd ⟨[0x28 + g, f], rest', rfl, .inl ⟨_, _, .cs94 final⟩⟩ other
          · exact absurd ⟨[0x28 + g, 0x21, f], rest', rfl, .inl ⟨_, _, .cs942 final⟩⟩ other
        · by_cases cs96 : 0x2C ≤ byte ∧ byte ≤ 0x2F
          · obtain ⟨g, rfl⟩ := exists_g cs96.1 cs96.2
            refine (escLoop_next (by omega) (escByte_cs96_g g 0)).trans ?_
            rcases @escLoop_ends st g (1 + 1) .cs96 rest fun _ => rfl with refused | ⟨f, rest', rfl, final⟩
            · exact refused
            · exact absurd ⟨[0x2C + g, f], rest', rfl, .inl ⟨_, _, .cs96 final⟩⟩ other
          · by_cases control : byte = 0x21 ∨ byte = 0x22 ∨ byte = 0x26
            · have step : escByte .esc byte 0 = .next .c0 0 := by
                rw [escByte, if_neg mbcs, if_neg cs94, if_neg cs96, if_pos control]
              refine (escLoop_next (by omega) step).trans ?_
              rcases @escLoop_ends st 0 (1 + 1) .c0 rest fun _ => rfl with refused | ⟨f, rest', rfl, final⟩
              · exact refused
              · exact absurd ⟨[byte, f], rest', rfl, .inr ⟨_, .control control final⟩⟩ other
            · by_cases coding : byte = 0x25
              · subst coding
                refine (escLoop_next (by omega) rfl).trans ?_
                rcases @escLoop_cswsr_ends st 0 (1 + 1) rest with refused | ⟨f, rest', rfl, final⟩ | ⟨f, rest', rfl, final⟩
                · exact refused
                · exact absurd ⟨[0x25, f], rest', rfl, .inr ⟨_, .coding final⟩⟩ other
                · exact absurd ⟨[0x25, 0x2F, f], rest', rfl, .inr ⟨_, .codingFixed final⟩⟩ other
              · have fails : escByte .esc byte 0 = .fail := by
                  rw [escByte, if_neg mbcs, if_neg cs94, if_neg cs96, if_neg control, if_neg coding]
                  cases found : shifts.find? fun shift => decide (shift.byte = byte) with
                  | none => rfl
                  | some shift =>
                      have number : shift.byte = byte := by simpa using List.find?_some found
                      subst number
                      exact absurd ⟨[shift.byte], rest, rfl, .inr ⟨_, .shift shift⟩⟩ other
                rw [escLoop, fails]
                exact ite_self _

end Loop

/-- What a text behind ESC does: it designates a set, or it is read and designates nothing, or it is
refused. The sequences with two intermediate bytes that name another set than G1 are left out. -/
theorem parseIso2022Esc_spec (text : List Nat) (st : IsoStatus) :
    (∀ seq rest g ccs, Designates seq g ccs → (seq[1]? = some 0x21 → g = 1) → text = seq ++ rest →
        parseIso2022Esc (0x1B :: text) st = (1, seq.length, st.designate g ccs)) ∧
      (∀ seq rest effect, Passes seq effect → text = seq ++ rest →
        parseIso2022Esc (0x1B :: text) st = (1, seq.length, effect st) ∧ (effect st).design = st.design) ∧
      (¬ Recognised text → parseIso2022Esc (0x1B :: text) st = (0, 0, st)) := by
  refine ⟨?_, ?_, fun other => escLoop_refused other⟩
  · rintro seq rest g ccs designates kept rfl
    exact escLoop_designates designates kept
  · rintro seq rest effect passes rfl
    exact ⟨escLoop_passes passes, passes.design st⟩

/-- ESC N is no designation, and is read all the same. -/
theorem parseIso2022Esc_singleShift :
    ¬ ∀ (text : List Nat) (st : IsoStatus), (¬ ∃ seq rest g ccs, Designates seq g ccs ∧ text = seq ++ rest) →
      parseIso2022Esc (0x1B :: text) st = (0, 0, st) := by
  intro all
  have refused := congrArg Prod.fst (all [0x4E] ⟨fun _ => 0, 0, 0, 0, 0⟩ ?_)
  · exact absurd refused (by decide)
  · rintro ⟨seq, rest, g, ccs, designates, split⟩
    have small := g.isLt
    cases designates
    all_goals
      have first := (List.cons.inj split).1
      omega

end KcnTools.Libwc
