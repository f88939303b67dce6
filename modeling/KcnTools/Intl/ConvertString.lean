import KcnTools.Intl.EntityCacheRuns
import KcnTools.Intl.EntityCache
import Mathlib.Data.List.Basic

/-!
Conversion of strings: `convert_string` of `intl/charsets.c` translates the bytes by a table and
decodes entities, into one string or in pieces for a callback. The state carries the size of the
buffer, and a write outside of it is `none`.
-/

namespace KcnTools.Intl

open Protocols

def ALLOC_GR : Nat := 0x100

/-- An entry of a table. The string `none` is the pointer `no_str`. -/
inductive ConvEntry
  | str (str : Option (List UInt8))
  | tbl (table : UInt8 → ConvEntry)

abbrev ConvTable := UInt8 → ConvEntry

inductive ConvertStringMode
  | default
  | query
  | form
  | none
  deriving DecidableEq

def isasciialpha (c : UInt8) : Bool := (65 ≤ c && c ≤ 90) || (97 ≤ c && c ≤ 122)

def isEntityChar (c : UInt8) : Bool := isasciialpha c || isdigit c || c = 35

def entryText (str : Option (List UInt8)) : List UInt8 := cString (str.getD noStr)

/-- The string that the bytes lead to, and how many of them; `none` when they end inside. -/
def walkTable : ConvTable → List UInt8 → Option (List UInt8 × Nat)
  | _, [] => none
  | table, c :: rest =>
      match table c with
      | .str str => some (entryText str, 1)
      | .tbl table => (walkTable table rest).map fun found => (found.1, found.2 + 1)

section

variable (tables : CharsetTables) (qsort : List EntityCacheEntry → List EntityCacheEntry)

/-- What an ampersand and the text behind it stand for, and how many bytes are consumed. The byte
`behind` follows the whole text. -/
def convertEntity (cp : Nat) (mode : ConvertStringMode) (behind : UInt8) (cache : EntityCache)
    (text : List UInt8) : EntityCache × Option (List UInt8 × Nat) :=
  let name := text.takeWhile isEntityChar
  let next := (text.drop name.length).headD behind
  if (mode = .default ∨ (next ≠ 38 ∧ next ≠ 61)) ∧ name ≠ [] ∧ isasciialpha next = false ∧ isdigit next = false then
    let looked := getEntityString tables qsort cache name cp
    -- a character that is no terminator is left
    let i := if next ≠ 59 then name.length else name.length + 1
    (looked.1, looked.2.map fun translit => (cString translit, i + if i < text.length + 1 then 1 else 0))
  else (cache, none)

/-- One iteration of the main loop; `none` copies the byte. -/
def convertNext (convertTable : Option ConvTable) (cp : Nat) (mode : ConvertStringMode) (behind : UInt8)
    (cache : EntityCache) (c : UInt8) (rest : List UInt8) : EntityCache × Option (List UInt8 × Nat) :=
  if c ≠ 38 then
    if c < 128 then (cache, none) else (cache, convertTable.bind fun table => walkTable table (c :: rest))
  else if mode = .form ∨ mode = .none then (cache, none)
  else convertEntity tables qsort cp mode behind cache rest

/-- The first `bufferpos` bytes of the buffer, its size and what the callback got. -/
structure ConvState where
  buffer : List UInt8
  size : Nat
  passed : List (List UInt8)

def ConvState.start : ConvState := ⟨[], ALLOC_GR + 1, []⟩

def flush (streaming : Bool) (state : ConvState) : Option ConvState :=
  if state.buffer.length % ALLOC_GR ≠ 0 then some state
  else if streaming then
    if state.buffer.length < state.size then some { state with buffer := [], passed := state.passed ++ [state.buffer] }
    else none
  else some { state with size := state.buffer.length + ALLOC_GR }

def putByte (streaming : Bool) (state : ConvState) (c : UInt8) : Option ConvState :=
  if state.buffer.length < state.size then flush streaming { state with buffer := state.buffer ++ [c] } else none

/-- The main loop; `none` is a write outside of the buffer or too little fuel. -/
def convertLoop (convertTable : Option ConvTable) (cp : Nat) (mode : ConvertStringMode) (behind : UInt8)
    (streaming : Bool) : Nat → List UInt8 → EntityCache → ConvState → Option (EntityCache × ConvState)
  | _, [], cache, state => some (cache, state)
  | 0, _ :: _, _, _ => none
  | fuel + 1, c :: rest, cache, state =>
      let next := convertNext tables qsort convertTable cp mode behind cache c rest
      let step := next.2.getD ([c], 1)
      (step.1.foldlM (putByte streaming) state).bind fun state =>
        convertLoop convertTable cp mode behind streaming fuel ((c :: rest).drop step.2) next.1 state

/-- What a call leaves: the string it returns, `*length`, the calls of the callback and the cache. -/
structure Converted where
  returned : Option (List UInt8)
  length : Nat
  passed : List (List UInt8)
  cache : EntityCache

def convertString (convertTable : Option ConvTable) (chars : List UInt8) (behind : UInt8) (cp : Nat)
    (mode : ConvertStringMode) (previous : Nat) (streaming : Bool) (cache : EntityCache) : Option Converted :=
  if convertTable.isNone ∧ 38 ∉ chars then
    some
      (if streaming then ⟨none, previous, if chars.length ≠ 0 then [chars] else [], cache⟩
      else ⟨some chars, previous, [], cache⟩)
  else
    (convertLoop tables qsort convertTable cp mode behind streaming chars.length chars cache .start).bind
      fun (cache, state) =>
        if state.buffer.length < state.size then
          some
            (if streaming then
              ⟨none, state.buffer.length,
                state.passed ++ (if state.buffer.length ≠ 0 then [state.buffer] else []), cache⟩
            else ⟨some state.buffer, state.buffer.length, [], cache⟩)
        else none

end

end KcnTools.Intl

/-!
The text that `convert_string` makes, whatever it is put into: one buffer that grows or one that is
passed on each time it is full.
-/

namespace KcnTools.Intl

open Protocols

variable {tables : CharsetTables} {qsort : List EntityCacheEntry → List EntityCacheEntry}

/-! The buffers. -/

/-- The buffer has room up to the next multiple of the granularity. -/
structure Filled (streaming : Bool) (state : ConvState) (out : List UInt8) : Prop where
  text : state.passed.flatten ++ state.buffer = out
  streamed : streaming = true → state.size = ALLOC_GR + 1 ∧ state.buffer.length < ALLOC_GR
  whole : streaming = false → state.passed = [] ∧
    ∃ blocks, state.buffer.length < blocks * ALLOC_GR ∧ blocks * ALLOC_GR ≤ state.size

theorem Filled.room {streaming : Bool} {state : ConvState} {out : List UInt8} (filled : Filled streaming state out) :
    state.buffer.length < state.size := by
  cases streaming with
  | true =>
      obtain ⟨size, short⟩ := filled.streamed rfl
      omega
  | false =>
      obtain ⟨-, blocks, inside, room⟩ := filled.whole rfl
      exact Nat.lt_of_lt_of_le inside room

theorem filled_start (streaming : Bool) : Filled streaming .start [] where
  text := rfl
  streamed _ := ⟨rfl, by decide⟩
  whole _ := ⟨rfl, 1, by decide, by decide⟩

theorem putByte_spec {streaming : Bool} {state : ConvState} {out : List UInt8}
    (filled : Filled streaming state out) (c : UInt8) :
    ∃ after, putByte streaming state c = some after ∧ Filled streaming after (out ++ [c]) := by
  have text : state.passed.flatten ++ (state.buffer ++ [c]) = out ++ [c] := by
    rw [← List.append_assoc, filled.text]
  have length : (state.buffer ++ [c]).length = state.buffer.length + 1 := List.length_append
  rw [putByte, if_pos filled.room, flush]
  dsimp only
  rw [length]
  cases streaming with
  | true =>
      obtain ⟨size, short⟩ := filled.streamed rfl
      rw [ALLOC_GR] at size short
      split
      next inside =>
        refine ⟨_, rfl, ⟨text, fun _ => ⟨size, ?_⟩, nofun⟩⟩
        rw [ALLOC_GR] at inside
        rw [length, ALLOC_GR]
        omega
      next full =>
        rw [if_pos rfl, if_pos (by omega)]
        refine ⟨_, rfl, ⟨?_, fun _ => ⟨size, Nat.succ_pos 255⟩, nofun⟩⟩
        rw [List.flatten_append, List.flatten_singleton, List.append_nil]
        exact text
  | false =>
      obtain ⟨nothing, blocks, inside, room⟩ := filled.whole rfl
      rw [ALLOC_GR] at inside room
      split
      next between =>
        refine ⟨_, rfl, ⟨text, nofun, fun _ => ⟨nothing, blocks, ?_, room⟩⟩⟩
        rw [ALLOC_GR] at between
        rw [length, ALLOC_GR]
        omega
      next =>
        rw [if_neg Bool.false_ne_true]
        refine ⟨_, rfl, ⟨text, nofun, fun _ => ⟨nothing, (state.buffer.length + 1) / 256 + 1, ?_, ?_⟩⟩⟩
        · rw [length, ALLOC_GR]
          omega
        · rw [Nat.succ_mul]
          exact Nat.add_le_add_right (Nat.div_mul_le_self _ _) _

theorem putBytes_spec {streaming : Bool} {state : ConvState} {out : List UInt8}
    (filled : Filled streaming state out) (added : List UInt8) :
    ∃ after, added.foldlM (putByte streaming) state = some after ∧ Filled streaming after (out ++ added) := by
  induction added generalizing state out with
  | nil => exact ⟨state, rfl, by rwa [List.append_nil]⟩
  | cons c added ih =>
      obtain ⟨next, put, filled'⟩ := putByte_spec filled c
      obtain ⟨after, rest, filled''⟩ := ih filled'
      refine ⟨after, ?_, ?_⟩
      · rw [List.foldlM_cons, put]
        exact rest
      · rwa [List.append_assoc] at filled''

/-! The bytes consumed. -/

theorem walkTable_consumes {table : ConvTable} {text : List UInt8} {found : List UInt8 × Nat}
    (walked : walkTable table text = some found) : 0 < found.2 := by
  cases text with
  | nil => cases walked
  | cons c rest =>
      rw [walkTable] at walked
      split at walked
      · cases walked
        exact Nat.one_pos
      · obtain ⟨deeper, -, rfl⟩ := Option.map_eq_some_iff.mp walked
        exact Nat.succ_pos _

theorem convertEntity_consumes {cp : Nat} {mode : ConvertStringMode} {behind : UInt8} {cache : EntityCache}
    {text : List UInt8} {step : List UInt8 × Nat}
    (converted : (convertEntity tables qsort cp mode behind cache text).2 = some step) : 0 < step.2 := by
  rw [convertEntity] at converted
  dsimp only at converted
  split at converted
  next terminated =>
    obtain ⟨translit, -, rfl⟩ := Option.map_eq_some_iff.mp converted
    have named := List.length_pos_iff.mpr terminated.2.1
    dsimp only
    split <;> omega
  next => cases converted

theorem convertNext_consumes {convertTable : Option ConvTable} {cp : Nat} {mode : ConvertStringMode}
    {behind : UInt8} {cache : EntityCache} {c : UInt8} {rest : List UInt8} {step : List UInt8 × Nat}
    (converted : (convertNext tables qsort convertTable cp mode behind cache c rest).2 = some step) :
    0 < step.2 := by
  rw [convertNext] at converted
  split at converted
  · split at converted
    · cases converted
    · obtain ⟨table, -, walked⟩ := Option.bind_eq_some_iff.mp converted
      exact walkTable_consumes walked
  · split at converted
    · cases converted
    · exact convertEntity_consumes converted

/-! The text. -/

section

variable (tables : CharsetTables) (qsort : List EntityCacheEntry → List EntityCacheEntry)
  (convertTable : Option ConvTable) (cp : Nat) (mode : ConvertStringMode) (behind : UInt8)

def convertStep (cache : EntityCache) (c : UInt8) (rest : List UInt8) : List UInt8 × Nat :=
  (convertNext tables qsort convertTable cp mode behind cache c rest).2.getD ([c], 1)

theorem convertStep_consumes (cache : EntityCache) (c : UInt8) (rest : List UInt8) :
    0 < (convertStep tables qsort convertTable cp mode behind cache c rest).2 := by
  rw [convertStep]
  cases converted : (convertNext tables qsort convertTable cp mode behind cache c rest).2 with
  | none => exact Nat.one_pos
  | some step => exact convertNext_consumes converted

def convertedText (cache : EntityCache) : List UInt8 → EntityCache × List UInt8
  | [] => (cache, [])
  | c :: rest =>
      let step := convertStep tables qsort convertTable cp mode behind cache c rest
      let next := (convertNext tables qsort convertTable cp mode behind cache c rest).1
      let later := convertedText next (rest.drop (step.2 - 1))
      (later.1, step.1 ++ later.2)
  termination_by text => text.length
  decreasing_by
    rw [List.length_drop, List.length_cons]
    omega

/-- Every iteration consumes a byte, so as much fuel as there are bytes is enough, and what is put
into the buffers is the converted text. -/
theorem convertLoop_spec {streaming : Bool} {fuel : Nat} {text : List UInt8} (enough : text.length ≤ fuel)
    (cache : EntityCache) {state : ConvState} {out : List UInt8} (filled : Filled streaming state out) :
    ∃ after,
      convertLoop tables qsort convertTable cp mode behind streaming fuel text cache state =
        some ((convertedText tables qsort convertTable cp mode behind cache text).1, after) ∧
      Filled streaming after (out ++ (convertedText tables qsort convertTable cp mode behind cache text).2) := by
  induction fuel generalizing text cache state out with
  | zero =>
      cases text with
      | nil =>
          rw [convertedText]
          exact ⟨state, rfl, by rwa [List.append_nil]⟩
      | cons => simp at enough
  | succ fuel ih =>
      cases text with
      | nil =>
          rw [convertedText]
          exact ⟨state, rfl, by rwa [List.append_nil]⟩
      | cons c rest =>
          have consumes := convertStep_consumes tables qsort convertTable cp mode behind cache c rest
          obtain ⟨next, put, filled'⟩ := putBytes_spec filled
            (convertStep tables qsort convertTable cp mode behind cache c rest).1
          rw [List.length_cons] at enough
          obtain ⟨after, ran, filled''⟩ := @ih
            (rest.drop ((convertStep tables qsort convertTable cp mode behind cache c rest).2 - 1))
            (by rw [List.length_drop]; omega)
            (convertNext tables qsort convertTable cp mode behind cache c rest).1 next _ filled'
          have dropped : (c :: rest).drop (convertStep tables qsort convertTable cp mode behind cache c rest).2 =
              rest.drop ((convertStep tables qsort convertTable cp mode behind cache c rest).2 - 1) := by
            rw [← Nat.sub_add_cancel consumes]
            rfl
          refine ⟨after, ?_, ?_⟩
          · rw [convertLoop, convertedText]
            dsimp only
            rw [← convertStep, put, Option.bind_some, dropped]
            exact ran
          · rw [convertedText]
            rwa [List.append_assoc] at filled''

theorem convertNext_plain {convertTable : Option ConvTable} (nothing : convertTable = none) (cache : EntityCache)
    {c : UInt8} (plain : c ≠ 38) (rest : List UInt8) :
    convertNext tables qsort convertTable cp mode behind cache c rest = (cache, none) := by
  rw [convertNext, if_pos plain, nothing]
  split
  · rfl
  · rfl

theorem convertedText_plain {convertTable : Option ConvTable} (nothing : convertTable = none) (cache : EntityCache)
    {text : List UInt8} (plain : 38 ∉ text) :
    convertedText tables qsort convertTable cp mode behind cache text = (cache, text) := by
  induction text with
  | nil => rw [convertedText]
  | cons c rest ih =>
      rw [List.mem_cons, not_or] at plain
      rw [convertedText, convertStep,
        convertNext_plain tables qsort cp mode behind nothing cache (Ne.symm plain.1) rest]
      dsimp only [Option.getD_none]
      rw [List.drop_zero, ih plain.2]
      rfl

theorem convertString_streamed (chars : List UInt8) (previous : Nat) (cache : EntityCache) :
    ∃ streamed, convertString tables qsort convertTable chars behind cp mode previous true cache = some streamed ∧
      streamed.returned = none ∧
      streamed.passed.flatten = (convertedText tables qsort convertTable cp mode behind cache chars).2 := by
  rw [convertString]
  split
  next shortcut =>
    rw [convertedText_plain tables qsort cp mode behind (Option.isNone_iff_eq_none.mp shortcut.1) cache shortcut.2]
    refine ⟨_, rfl, rfl, ?_⟩
    cases chars <;> simp
  next =>
    obtain ⟨after, ran, filled⟩ := convertLoop_spec tables qsort convertTable cp mode behind
      (Nat.le_refl chars.length) cache (filled_start true)
    rw [ran, Option.bind_some]
    dsimp only
    rw [if_pos filled.room]
    refine ⟨_, rfl, rfl, ?_⟩
    rw [← List.nil_append (convertedText _ _ _ _ _ _ _ _).2, ← filled.text]
    cases after.buffer <;> simp

theorem convertString_whole (chars : List UInt8) (previous : Nat) (cache : EntityCache) :
    ∃ whole, convertString tables qsort convertTable chars behind cp mode previous false cache = some whole ∧
      whole.passed = [] ∧
      whole.returned = some (convertedText tables qsort convertTable cp mode behind cache chars).2 ∧
      whole.length =
        if convertTable.isNone ∧ 38 ∉ chars then previous
        else (convertedText tables qsort convertTable cp mode behind cache chars).2.length := by
  rw [convertString]
  split
  next shortcut =>
    rw [convertedText_plain tables qsort cp mode behind (Option.isNone_iff_eq_none.mp shortcut.1) cache shortcut.2]
    exact ⟨_, rfl, rfl, rfl, rfl⟩
  next =>
    obtain ⟨after, ran, filled⟩ := convertLoop_spec tables qsort convertTable cp mode behind
      (Nat.le_refl chars.length) cache (filled_start false)
    have text := filled.text
    rw [(filled.whole rfl).1, List.flatten_nil, List.nil_append, List.nil_append] at text
    rw [ran, Option.bind_some]
    dsimp only
    rw [if_pos filled.room, text]
    exact ⟨_, rfl, rfl, rfl, rfl⟩

/-- The pieces for the callback are the string that is returned without one, and `*length` is its
length whatever was there before. -/
def StreamsWhole (chars : List UInt8) (cache : EntityCache) : Prop :=
  ∀ previous, ∃ streamed whole text,
    convertString tables qsort convertTable chars behind cp mode previous true cache = some streamed ∧
    convertString tables qsort convertTable chars behind cp mode previous false cache = some whole ∧
    streamed.returned = none ∧ whole.passed = [] ∧ whole.returned = some text ∧
    streamed.passed.flatten = text ∧ whole.length = text.length

/-- The pieces are right for every text, but the length is left out where nothing has to be
converted. -/
theorem convertString_streams_iff (chars : List UInt8) (cache : EntityCache) :
    (∀ previous, ∃ streamed whole,
      convertString tables qsort convertTable chars behind cp mode previous true cache = some streamed ∧
      convertString tables qsort convertTable chars behind cp mode previous false cache = some whole ∧
      streamed.returned = none ∧ whole.returned = some streamed.passed.flatten) ∧
    (StreamsWhole tables qsort convertTable cp mode behind chars cache ↔
      convertTable.isSome = true ∨ 38 ∈ chars) := by
  have both := fun previous => And.intro
    (convertString_streamed tables qsort convertTable cp mode behind chars previous cache)
    (convertString_whole tables qsort convertTable cp mode behind chars previous cache)
  constructor
  · intro previous
    obtain ⟨⟨streamed, ran, nothing, pieces⟩, whole, ran', -, returned, -⟩ := both previous
    exact ⟨streamed, whole, ran, ran', nothing, by rw [returned, pieces]⟩
  · constructor
    · intro streams
      by_contra shortcut
      rw [not_or, Bool.not_eq_true, Option.isSome_eq_false_iff] at shortcut
      -- The caller's value stays, so there is one that is not the length.
      obtain ⟨-, whole, ran, -, returned, length⟩ := both (chars.length + 1)
      obtain ⟨streamed, whole', text, -, ran', -, -, returned', -, length'⟩ := streams (chars.length + 1)
      rw [ran, Option.some.injEq] at ran'
      subst ran'
      rw [if_pos shortcut] at length
      rw [returned, Option.some.injEq, convertedText_plain tables qsort cp mode behind
        (Option.isNone_iff_eq_none.mp shortcut.1) cache shortcut.2] at returned'
      rw [length, ← returned'] at length'
      exact Nat.succ_ne_self _ length'
    · intro converts previous
      obtain ⟨⟨streamed, ran, nothing, pieces⟩, whole, ran', passed, returned, length⟩ := both previous
      refine ⟨streamed, whole, _, ran, ran', nothing, passed, returned, pieces, ?_⟩
      rw [length, if_neg]
      rintro ⟨missing, plain⟩
      rcases converts with given | ampersand
      · rw [Option.isNone_iff_eq_none.mp missing] at given
        cases given
      · exact plain ampersand

end

/-- The string `a` is returned, and `*length` is still zero. -/
theorem convertString_length_left :
    convertString noTables sortByHits none [97] 0 0 .default 0 false emptyEntityCache =
        some ⟨some [97], 0, [], emptyEntityCache⟩ ∧
      ¬ StreamsWhole noTables sortByHits none 0 .default 0 [97] emptyEntityCache := by
  have ran : convertString noTables sortByHits none [97] 0 0 .default 0 false emptyEntityCache =
      some ⟨some [97], 0, [], emptyEntityCache⟩ := rfl
  refine ⟨ran, ?_⟩
  intro streams
  obtain ⟨_, whole, text, -, ran', -, -, returned, -, length⟩ := streams 0
  rw [ran, Option.some.injEq] at ran'
  subst ran'
  rw [Option.some.injEq] at returned
  subst returned
  cases length

end KcnTools.Intl
