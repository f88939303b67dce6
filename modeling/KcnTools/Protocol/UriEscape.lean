import KcnTools.Cache.CacheDefragment
import KcnTools.Protocol.ProtocolTable
import Mathlib

/-!
Escaping of `protocol/uri.c`. `decode_uri` works in place with a reading and a writing pointer;
every read is checked against the memory, which ends with the NUL of the string.
-/

namespace KcnTools.Protocols

open Cache (wrapInt wrapInt_of_bounds)

def safeChar (c : UInt8) : Bool := isalnum c || [95, 45, 46, 33, 126, 42, 39, 40, 41].contains c

def hx (a : Nat) : UInt8 := if a ≥ 10 then UInt8.ofNat (a + 97 - 10) else UInt8.ofNat (a + 48)

def unhx (a : UInt8) : Int :=
  if isdigit a then (a.toNat : Int) - 48
  else if 97 ≤ a && a ≤ 102 then (a.toNat : Int) - 97 + 10
  else if 65 ≤ a && a ≤ 70 then (a.toNat : Int) - 65 + 10
  else -1

def encodeChar (convertSlashes : Bool) (c : UInt8) : List UInt8 :=
  if safeChar c || (!convertSlashes && c == 47) then [c]
  else [37, hx ((c.toNat &&& 240) >>> 4), hx (c.toNat &&& 15)]

/-- A negative length stands for that of the whole string, which is cut to an `int`. -/
def encodeUriString (string name : List UInt8) (namelen : Int) (convertSlashes : Bool) : List UInt8 :=
  let namelen := if namelen < 0 then wrapInt name.length else namelen
  string ++ (name.take namelen.toNat).flatMap (encodeChar convertSlashes)

structure Decoding where
  mem : List UInt8
  src : Nat
  dst : Nat

/-- The next character with what is behind it; `none` is a read outside of the memory. -/
def decodeChar (mem : List UInt8) (src : Nat) : Option (UInt8 × Nat) := do
  let c ← mem[src]?
  if c ≠ 37 then some (c, src + 1)
  else
    let x1 := unhx (← mem[src + 1]?)
    if x1 < 0 then some (c, src + 1)
    else
      let x2 := unhx (← mem[src + 2]?)
      if x2 < 0 then some (c, src + 1)
      else if x1 * 16 + x2 ≠ 0 then some (UInt8.ofNat (x1 * 16 + x2).toNat, src + 3)
      else some (c, src + 1)

def decodeStep (d : Decoding) : Option (Decoding × Bool) :=
  (decodeChar d.mem d.src).map fun (c, src) => (⟨d.mem.set d.dst c, src, d.dst + 1⟩, c != 0)

theorem decodeChar_src {mem : List UInt8} {src next : Nat} {c : UInt8} (read : decodeChar mem src = some (c, next)) :
    src < mem.length ∧ src < next := by
  simp only [decodeChar, Option.bind_eq_bind, Option.bind_eq_some_iff] at read
  obtain ⟨first, found, read⟩ := read
  refine ⟨(List.getElem?_eq_some_iff.mp found).1, ?_⟩
  split at read
  · simp only [Option.some.injEq, Prod.mk.injEq] at read
    omega
  · obtain ⟨second, _, read⟩ := Option.bind_eq_some_iff.mp read
    split at read
    · simp only [Option.some.injEq, Prod.mk.injEq] at read
      omega
    · obtain ⟨third, _, read⟩ := Option.bind_eq_some_iff.mp read
      split at read
      · simp only [Option.some.injEq, Prod.mk.injEq] at read
        omega
      · split at read <;> simp only [Option.some.injEq, Prod.mk.injEq] at read <;> omega

def decodeUri (d : Decoding) : Option Decoding :=
  match _step : decodeStep d with
  | none => none
  | some (next, more) => if more then decodeUri next else some next
termination_by d.mem.length - d.src
decreasing_by
  simp only [decodeStep, Option.map_eq_some_iff] at _step
  obtain ⟨⟨c, src⟩, read, same⟩ := _step
  have moved := decodeChar_src read
  have shape := (Prod.mk.inj same).1
  rw [← shape]
  simp only [List.length_set]
  omega

def startDecoding (text : List UInt8) : Decoding := ⟨text ++ [0], 0, 0⟩

def decodeString (text : List UInt8) : Option (List UInt8) :=
  (decodeUri (startDecoding text)).map fun d => cString d.mem

section Decoded

def escaped : List UInt8 → Option UInt8
  | 37 :: x1 :: x2 :: _ =>
      if 0 ≤ unhx x1 ∧ 0 ≤ unhx x2 ∧ unhx x1 * 16 + unhx x2 ≠ 0 then
        some (UInt8.ofNat (unhx x1 * 16 + unhx x2).toNat)
      else none
  | _ => none

def unescape : List UInt8 → List UInt8
  | [] => []
  | c :: rest =>
      match escaped (c :: rest) with
      | some value => value :: unescape (rest.drop 2)
      | none => c :: unescape rest
termination_by text => text.length
decreasing_by
  all_goals
    simp only [List.length_drop, List.length_cons]
    omega

theorem unhx_facts (c : UInt8) : -1 ≤ unhx c ∧ unhx c < 16 := by
  have all : ∀ bits : BitVec 8, -1 ≤ unhx ⟨bits⟩ ∧ unhx ⟨bits⟩ < 16 := by decide +kernel
  exact all c.toBitVec

theorem escaped_ne_zero {text : List UInt8} {value : UInt8} (found : escaped text = some value) : value ≠ 0 := by
  rw [escaped.eq_def] at found
  split at found
  · rename_i x1 x2 rest
    split at found
    · rename_i digits
      have first := unhx_facts x1
      have second := unhx_facts x2
      rw [Option.some.injEq] at found
      rintro rfl
      have zero := congrArg UInt8.toNat found
      rw [UInt8.toNat_ofNat', UInt8.toNat_zero] at zero
      omega
    · cases found
  · cases found

theorem escaped_length {text : List UInt8} {value : UInt8} (found : escaped text = some value) : 3 ≤ text.length := by
  rw [escaped.eq_def] at found
  split at found
  · simp only [List.length_cons]
    omega
  · cases found

theorem unescape_nul {text : List UInt8} (plain : 0 ∉ text) : 0 ∉ unescape text := by
  fun_induction unescape text with
  | case1 => exact plain
  | case2 c rest value found ih =>
      rw [List.mem_cons, not_or]
      refine ⟨Ne.symm (escaped_ne_zero found), ih fun member => plain ?_⟩
      exact List.mem_cons_of_mem c (List.mem_of_mem_drop member)
  | case3 c rest none ih =>
      rw [List.mem_cons, not_or] at plain ⊢
      exact ⟨plain.1, ih plain.2⟩

end Decoded

section Memory

theorem getElem?_of_drop {mem tail : List UInt8} {src : Nat} (behind : mem.drop src = tail) (offset : Nat) :
    mem[src + offset]? = tail[offset]? := by
  rw [← behind, List.getElem?_drop]

theorem decodeChar_eq {mem rest : List UInt8} {src : Nat} {c : UInt8} (behind : mem.drop src = c :: (rest ++ [0])) :
    decodeChar mem src = some (match escaped (c :: rest) with
      | some value => (value, src + 3)
      | none => (c, src + 1)) := by
  have first : mem[src]? = some c := getElem?_of_drop behind 0
  have second : mem[src + 1]? = (rest ++ [0])[0]? := getElem?_of_drop behind 1
  have third : mem[src + 2]? = (rest ++ [0])[1]? := getElem?_of_drop behind 2
  have nul : unhx 0 = -1 := by decide
  by_cases percent : c = 37
  · rw [percent]
    rw [percent] at first
    rcases rest with _ | ⟨x1, _ | ⟨x2, rest⟩⟩
    · simp [decodeChar, first, second, escaped, nul]
    · simp [decodeChar, first, second, third, escaped, nul]
    · simp only [decodeChar, first, second, third, Option.bind_eq_bind, Option.bind_some, ne_eq,
        not_true_eq_false, if_false, List.cons_append, List.getElem?_cons_zero,
        List.getElem?_cons_succ, escaped]
      by_cases digit1 : unhx x1 < 0
      · rw [if_pos digit1, if_neg (by omega)]
      · by_cases digit2 : unhx x2 < 0
        · rw [if_neg digit1, if_pos digit2, if_neg (by omega)]
        · by_cases zero : unhx x1 * 16 + unhx x2 = 0
          · rw [if_neg digit1, if_neg digit2, if_neg (by omega), if_neg (by omega)]
          · rw [if_neg digit1, if_neg digit2, if_pos zero, if_pos ⟨by omega, by omega, zero⟩]
  · have none : escaped (c :: rest) = none := by
      rw [escaped.eq_def]
      split
      · rename_i shape
        exact absurd (List.cons.inj shape).1 percent
      · rfl
    rw [none, decodeChar, first]
    simp only [Option.bind_eq_bind, Option.bind_some, ne_eq, percent, not_false_eq_true, if_true]

/-- Both pointers are in the string, and no byte in front of the reading pointer is yet to be read. -/
structure Decodes (d : Decoding) (rest : List UInt8) : Prop where
  behind : d.mem.drop d.src = rest ++ [0]
  plain : 0 ∉ rest
  order : d.dst ≤ d.src

theorem Decodes.start {text : List UInt8} (plain : 0 ∉ text) : Decodes (startDecoding text) text :=
  ⟨rfl, plain, Nat.le_refl 0⟩

theorem Decodes.length {d : Decoding} {rest : List UInt8} (decodes : Decodes d rest) :
    d.src + rest.length + 1 = d.mem.length := by
  have lengths := congrArg List.length decodes.behind
  rw [List.length_drop, List.length_append, List.length_singleton] at lengths
  omega

theorem Decodes.last {d : Decoding} (decodes : Decodes d []) :
    decodeStep d = some (⟨d.mem.set d.dst 0, d.src + 1, d.dst + 1⟩, false) := by
  have first : d.mem[d.src]? = some 0 := getElem?_of_drop decodes.behind 0
  simp [decodeStep, decodeChar, first]

theorem Decodes.step {d : Decoding} {c : UInt8} {rest : List UInt8} (decodes : Decodes d (c :: rest)) :
    ∃ value left, unescape (c :: rest) = value :: unescape left ∧ left <:+ rest ∧ value ≠ 0 ∧
      decodeStep d = some (⟨d.mem.set d.dst value, d.mem.length - left.length - 1, d.dst + 1⟩, true) ∧
      Decodes ⟨d.mem.set d.dst value, d.mem.length - left.length - 1, d.dst + 1⟩ left := by
  have whole := decodes.length
  have order := decodes.order
  have plain := decodes.plain
  have read := decodeChar_eq decodes.behind
  rw [List.length_cons] at whole
  rw [List.mem_cons, not_or] at plain
  rw [unescape.eq_def]
  cases found : escaped (c :: rest) with
  | some value =>
      have long := escaped_length found
      rw [List.length_cons] at long
      have moved : d.mem.length - (rest.drop 2).length - 1 = d.src + 3 := by
        rw [List.length_drop]
        omega
      have nonzero := escaped_ne_zero found
      refine ⟨value, rest.drop 2, by simp only [found], List.drop_suffix 2 rest, nonzero, ?_, ?_, ?_, ?_⟩
      · rw [decodeStep, read, found, moved]
        simp [nonzero]
      · dsimp only
        rw [moved, List.drop_set_of_lt (by omega), ← List.drop_drop, decodes.behind]
        rw [List.cons_append, List.drop_succ_cons, List.drop_append_of_le_length (by omega)]
      · exact fun member => plain.2 (List.mem_of_mem_drop member)
      · dsimp only
        omega
  | none =>
      have moved : d.mem.length - rest.length - 1 = d.src + 1 := by omega
      have nonzero : c ≠ 0 := Ne.symm plain.1
      refine ⟨c, rest, by simp only [found], List.suffix_rfl, nonzero, ?_, ?_, plain.2, ?_⟩
      · rw [decodeStep, read, found, moved]
        simp [nonzero]
      · dsimp only
        rw [moved, List.drop_set_of_lt (by omega), ← List.drop_drop, decodes.behind]
        rfl
      · dsimp only
        omega

theorem decodeUri_eq (d : Decoding) : decodeUri d =
    (decodeStep d).bind fun (next, more) => if more then decodeUri next else some next := by
  rw [decodeUri]
  split
  · rename_i stuck
    rw [stuck]
    rfl
  · rename_i next more stepped
    rw [stepped]
    rfl

/-- The run writes what the escapes stand for, and reads the last byte of the memory last. -/
theorem decodeUri_run {d : Decoding} {rest : List UInt8} (decodes : Decodes d rest) :
    ∃ final, decodeUri d = some final ∧ final.src = d.mem.length ∧ final.dst ≤ final.src ∧
      final.mem.take final.dst = d.mem.take d.dst ++ (unescape rest ++ [0]) := by
  obtain ⟨size, bound⟩ : ∃ size, rest.length ≤ size := ⟨_, Nat.le_refl _⟩
  induction size generalizing d rest with
  | zero =>
      have none : rest = [] := List.length_eq_zero_iff.mp (by omega)
      rw [none] at decodes
      have whole := decodes.length
      have order := decodes.order
      rw [List.length_nil] at whole
      refine ⟨⟨d.mem.set d.dst 0, d.src + 1, d.dst + 1⟩, ?_, by dsimp only; omega, by dsimp only; omega, ?_⟩
      · rw [decodeUri_eq, decodes.last]
        rfl
      · dsimp only
        rw [none, unescape, List.nil_append, List.take_succ_eq_append_getElem (by rw [List.length_set]; omega),
          List.take_set_of_le (Nat.le_refl _), List.getElem_set_self]
  | succ size ih =>
      cases rest with
      | nil => exact ih decodes (Nat.zero_le _)
      | cons c rest =>
          obtain ⟨value, left, spelled, suffix, _, stepped, next⟩ := decodes.step
          have shorter := suffix.length_le
          rw [List.length_cons] at bound
          have whole := decodes.length
          have order := decodes.order
          obtain ⟨final, ran, ended, below, wrote⟩ := ih next (by omega)
          refine ⟨final, ?_, ?_, below, ?_⟩
          · rw [decodeUri_eq, stepped]
            exact ran
          · rw [ended, List.length_set]
          · rw [wrote, spelled, List.take_succ_eq_append_getElem (by rw [List.length_set]; omega),
              List.take_set_of_le (Nat.le_refl _), List.getElem_set_self, List.append_assoc]
            rfl

theorem cString_behind {text rest : List UInt8} (plain : 0 ∉ text) : cString (text ++ 0 :: rest) = text := by
  have all : ∀ c ∈ text, (c != 0) = true := by
    intro c member
    rw [bne_iff_ne]
    rintro rfl
    exact plain member
  rw [cString, List.takeWhile_append_of_pos all, List.takeWhile_cons_of_neg (by decide), List.append_nil]

theorem decodeString_eq {text : List UInt8} (plain : 0 ∉ text) : decodeString text = some (unescape text) := by
  obtain ⟨final, ran, _, _, wrote⟩ := decodeUri_run (Decodes.start plain)
  have whole := List.take_append_drop final.dst final.mem
  rw [wrote, startDecoding, List.take_zero, List.nil_append, List.append_assoc, List.singleton_append] at whole
  rw [decodeString, ran, Option.map_some, ← whole, cString_behind (unescape_nul plain)]

inductive Reached (text : List UInt8) : Decoding → Prop
  | start : Reached text (startDecoding text)
  | next {d next : Decoding} (earlier : Reached text d) (step : decodeStep d = some (next, true)) : Reached text next

theorem Reached.decodes {text : List UInt8} (plain : 0 ∉ text) {d : Decoding} (reached : Reached text d) :
    ∃ rest, Decodes d rest := by
  induction reached with
  | start => exact ⟨text, Decodes.start plain⟩
  | next _ step ih =>
      obtain ⟨rest, decodes⟩ := ih
      cases rest with
      | nil =>
          rw [decodes.last] at step
          cases step
      | cons c rest =>
          obtain ⟨value, left, _, _, _, stepped, next⟩ := decodes.step
          rw [stepped, Option.some.injEq, Prod.mk.injEq] at step
          rw [← step.1]
          exact ⟨left, next⟩

/-- Each turn reads inside of the string and its NUL, and writes no further than it reads. -/
theorem Reached.safe {text : List UInt8} (plain : 0 ∉ text) {d : Decoding} (reached : Reached text d) :
    (∃ result, decodeStep d = some result) ∧ d.dst ≤ d.src ∧ d.src ≤ text.length := by
  have size : d.mem.length = text.length + 1 := by
    induction reached with
    | start => rw [startDecoding, List.length_append, List.length_singleton]
    | next _ step ih =>
        simp only [decodeStep, Option.map_eq_some_iff, Prod.mk.injEq] at step
        obtain ⟨_, _, same, _⟩ := step
        rw [← same, List.length_set, ih]
  obtain ⟨rest, decodes⟩ := reached.decodes plain
  have whole := decodes.length
  refine ⟨?_, decodes.order, by omega⟩
  cases rest with
  | nil => exact ⟨_, decodes.last⟩
  | cons c rest =>
      obtain ⟨_, _, _, _, _, stepped, _⟩ := decodes.step
      exact ⟨_, stepped⟩

end Memory

section RoundTrip

theorem hx_facts (c : UInt8) : 0 ≤ unhx (hx ((c.toNat &&& 240) >>> 4)) ∧ 0 ≤ unhx (hx (c.toNat &&& 15)) ∧
    unhx (hx ((c.toNat &&& 240) >>> 4)) * 16 + unhx (hx (c.toNat &&& 15)) = c.toNat ∧
    hx ((c.toNat &&& 240) >>> 4) ≠ 0 ∧ hx (c.toNat &&& 15) ≠ 0 := by
  have all : ∀ bits : BitVec 8, (fun c : UInt8 => 0 ≤ unhx (hx ((c.toNat &&& 240) >>> 4)) ∧
      0 ≤ unhx (hx (c.toNat &&& 15)) ∧
      unhx (hx ((c.toNat &&& 240) >>> 4)) * 16 + unhx (hx (c.toNat &&& 15)) = c.toNat ∧
      hx ((c.toNat &&& 240) >>> 4) ≠ 0 ∧ hx (c.toNat &&& 15) ≠ 0) ⟨bits⟩ := by decide +kernel
  exact all c.toBitVec

theorem encodeChar_nul {convertSlashes : Bool} {c : UInt8} (plain : c ≠ 0) : 0 ∉ encodeChar convertSlashes c := by
  obtain ⟨_, _, _, high, low⟩ := hx_facts c
  rw [encodeChar]
  split <;> simp [Ne.symm plain, Ne.symm high, Ne.symm low]

theorem unescape_encodeChar {convertSlashes : Bool} {c : UInt8} (plain : c ≠ 0) (rest : List UInt8) :
    unescape (encodeChar convertSlashes c ++ rest) = c :: unescape rest := by
  rw [encodeChar]
  split
  · rename_i safe
    have other : c ≠ 37 := by
      rintro rfl
      revert safe
      cases convertSlashes <;> decide
    have none : escaped (c :: rest) = none := by
      rw [escaped.eq_def]
      split
      · rename_i shape
        exact absurd (List.cons.inj shape).1 other
      · rfl
    rw [List.singleton_append, unescape]
    simp only [none]
  · obtain ⟨high, low, value, _, _⟩ := hx_facts c
    have nonzero : (c.toNat : Int) ≠ 0 := by
      intro zero
      exact plain (UInt8.toNat_inj.mp (by rw [UInt8.toNat_zero]; omega))
    have found : escaped (37 :: hx ((c.toNat &&& 240) >>> 4) :: hx (c.toNat &&& 15) :: rest) = some c := by
      rw [escaped, value, if_pos ⟨high, low, nonzero⟩, Int.toNat_natCast, UInt8.ofNat_toNat]
    rw [List.cons_append, List.cons_append, List.cons_append, List.nil_append, unescape]
    simp only [found, List.drop_succ_cons, List.drop_zero]

theorem unescape_encode (convertSlashes : Bool) {name : List UInt8} (plain : 0 ∉ name) :
    unescape (name.flatMap (encodeChar convertSlashes)) = name := by
  induction name with
  | nil => rw [List.flatMap_nil, unescape]
  | cons c name ih =>
      rw [List.mem_cons, not_or] at plain
      rw [List.flatMap_cons, unescape_encodeChar (Ne.symm plain.1), ih plain.2]

theorem encode_nul (convertSlashes : Bool) {name : List UInt8} (plain : 0 ∉ name) :
    0 ∉ name.flatMap (encodeChar convertSlashes) := by
  intro member
  obtain ⟨c, inName, inCode⟩ := List.mem_flatMap.mp member
  exact encodeChar_nul (fun zero => plain (zero ▸ inName)) inCode

theorem encodeUriString_whole {name : List UInt8} {namelen : Int} (convertSlashes : Bool)
    (length : namelen = name.length ∨ namelen < 0 ∧ name.length < 2 ^ 31) :
    encodeUriString [] name namelen convertSlashes = name.flatMap (encodeChar convertSlashes) := by
  have count : (if namelen < 0 then wrapInt name.length else namelen) = name.length := by
    rcases length with exact | ⟨negative, small⟩
    · rw [if_neg (by omega), exact]
    · rw [if_pos negative, wrapInt_of_bounds (by omega) (by omega)]
  rw [encodeUriString, count, Int.toNat_natCast, List.take_length, List.nil_append]

/-- The length is given, or left to `strlen` for a string whose length is an `int`. -/
theorem decodeUri_encodeUriString :
    (∀ (name : List UInt8) (namelen : Int) (convertSlashes : Bool), 0 ∉ name →
      namelen = name.length ∨ namelen < 0 ∧ name.length < 2 ^ 31 →
      decodeString (encodeUriString [] name namelen convertSlashes) = some name) ∧
    (∀ text : List UInt8, 0 ∉ text →
      (∀ d, Reached text d → (∃ result, decodeStep d = some result) ∧ d.dst ≤ d.src ∧ d.src ≤ text.length) ∧
      ∃ final, decodeUri (startDecoding text) = some final ∧ final.src = text.length + 1 ∧
        final.mem.take final.dst = unescape text ++ [0] ∧ 0 ∉ unescape text) := by
  constructor
  · intro name namelen convertSlashes plain length
    rw [encodeUriString_whole convertSlashes length, decodeString_eq (encode_nul convertSlashes plain),
      unescape_encode convertSlashes plain]
  · intro text plain
    obtain ⟨final, ran, ended, _, wrote⟩ := decodeUri_run (Decodes.start plain)
    refine ⟨fun d reached => reached.safe plain, final, ran, ?_, wrote, unescape_nul plain⟩
    rw [ended, startDecoding, List.length_append, List.length_singleton]

/-- "a/% é" and "%41%00" -/
theorem decodeUri_encodeUriString_escapes :
    decodeString (encodeUriString [] [97, 47, 37, 32, 0xe9] (-1) true) = some [97, 47, 37, 32, 0xe9] ∧
      ∃ final, decodeUri (startDecoding [37, 52, 49, 37, 48, 48]) = some final ∧
        final.mem.take final.dst = [65, 37, 48, 48, 0] := by
  obtain ⟨trip, decodes⟩ := decodeUri_encodeUriString
  obtain ⟨-, final, ran, -, wrote, -⟩ := decodes [37, 52, 49, 37, 48, 48] (by decide)
  refine ⟨trip _ _ _ (by decide) (.inr ⟨by decide, by decide⟩), final, ran, wrote.trans ?_⟩
  decide +kernel

end RoundTrip

end KcnTools.Protocols
