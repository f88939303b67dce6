import KcnTools.Cookies.CookieRuns

/-!
The cookie file. A line is read back when none of its members has a tab or a newline and it
fits into the buffer; no other line gives the cookie that was saved.
-/

namespace KcnTools.Cookies

open Decimal Protocols

def Plain (s : List UInt8) : Prop := ∀ c ∈ s, c ≠ 0 ∧ c ≠ 9 ∧ c ≠ 10

structure PlainCookie (c : Cookie) : Prop where
  name : Plain c.name
  value : Plain c.value
  server : Plain c.server
  path : Plain c.path
  domain : Plain c.domain

def Storable (c : Cookie) : Prop := PlainCookie c ∧ (cookieLine c).length < bufferSize

def InTime (expires : Int) : Prop := -2 ^ 63 ≤ expires ∧ expires < 2 ^ 63

section Members

theorem strchr_append_cons {text rest : List UInt8} {c : UInt8} (absent : c ∉ text) :
    strchr (text ++ c :: rest) c = some text.length := by
  rw [strchr, List.findIdx?_append, List.findIdx?_eq_none_iff.mpr]
  · simp [List.findIdx?_cons]
  · intro d member
    exact beq_eq_false_iff_ne.mpr fun same => absent (same ▸ member)

theorem strchr_none {text : List UInt8} {c : UInt8} (absent : c ∉ text) : strchr text c = none := by
  rw [strchr, List.findIdx?_eq_none_iff]
  intro d member
  exact beq_eq_false_iff_ne.mpr fun same => absent (same ▸ member)

theorem Plain.no_tab {s : List UInt8} (plain : Plain s) : (9 : UInt8) ∉ s := fun member => (plain 9 member).2.1 rfl

theorem Plain.no_newline {s : List UInt8} (plain : Plain s) : (10 : UInt8) ∉ s :=
  fun member => (plain 10 member).2.2 rfl

theorem lineMembers_tab {text : List UInt8} (plain : Plain text) (count : Nat) (rest : List UInt8) :
    lineMembers (count + 1) (text ++ 9 :: rest) =
      (lineMembers count rest).map ((text ++ 9 :: rest, text.length) :: ·) := by
  rw [lineMembers, strchr_append_cons plain.no_tab]
  simp

theorem lineMembers_newline {text : List UInt8} (plain : Plain text) :
    lineMembers 1 (text ++ [10]) = some [(text ++ [10], text.length)] := by
  have noTab : (9 : UInt8) ∉ text ++ [10] := by
    rw [List.mem_append]
    rintro (inside | last)
    · exact plain.no_tab inside
    · simp at last
  rw [lineMembers, strchr_none noTab, strchr_append_cons plain.no_newline]
  rfl

theorem isspace_digit {c : UInt8} (digit : 48 ≤ c.toNat ∧ c.toNat ≤ 57) : isspace c = false ∧ isdigit c = true := by
  have all : ∀ bits : BitVec 8, 48 ≤ (⟨bits⟩ : UInt8).toNat ∧ (⟨bits⟩ : UInt8).toNat ≤ 57 →
      isspace ⟨bits⟩ = false ∧ isdigit ⟨bits⟩ = true := by decide +kernel
  exact all c.toBitVec digit

theorem takeWhile_decimal (n : Nat) (rest : List UInt8) :
    (decimal n ++ 9 :: rest).takeWhile isdigit = decimal n := by
  rw [List.takeWhile_append_of_pos fun c member => (isspace_digit (decimal_digits member)).2]
  simp [isdigit]

theorem atol_formatLong {value : Int} (inTime : InTime value) (rest : List UInt8) :
    atol (formatLong value ++ 9 :: rest) = value := by
  obtain ⟨digit, digits, shape⟩ := List.exists_cons_of_ne_nil (decimal_ne_nil value.natAbs)
  have first : digit ∈ decimal value.natAbs := shape ▸ List.mem_cons_self
  have bounds := decimal_digits first
  have read : decimalValue ((decimal value.natAbs ++ 9 :: rest).takeWhile isdigit) = value.natAbs := by
    rw [takeWhile_decimal, decimalValue_decimal]
  obtain ⟨lower, upper⟩ := inTime
  rw [atol, formatLong]
  by_cases negative : value < 0
  · rw [if_pos negative]
    simp only [List.cons_append, List.nil_append]
    have skipped : (45 :: (decimal value.natAbs ++ 9 :: rest)).dropWhile isspace =
        45 :: (decimal value.natAbs ++ 9 :: rest) := by
      rw [List.dropWhile_cons_of_neg]
      decide
    rw [skipped]
    simp only [read]
    omega
  · rw [if_neg negative, List.nil_append]
    have skipped : (decimal value.natAbs ++ 9 :: rest).dropWhile isspace = decimal value.natAbs ++ 9 :: rest := by
      rw [shape, List.cons_append, List.dropWhile_cons_of_neg]
      rw [(isspace_digit bounds).1]
      exact Bool.false_ne_true
    rw [skipped]
    split
    next rest' same =>
      rw [shape, List.cons_append, List.cons.injEq] at same
      rw [same.1] at bounds
      exact absurd bounds.1 (by decide)
    next rest' same =>
      rw [shape, List.cons_append, List.cons.injEq] at same
      rw [same.1] at bounds
      exact absurd bounds.1 (by decide)
    next =>
      simp only [read]
      omega

theorem formatLong_plain (value : Int) : Plain (formatLong value) := by
  intro c member
  rw [formatLong, List.mem_append] at member
  rcases member with sign | digit
  · split at sign
    · rw [List.mem_singleton] at sign
      subst sign
      decide
    · cases sign
  · have bounds := decimal_digits digit
    refine ⟨?_, ?_, ?_⟩ <;> rintro rfl <;> revert bounds <;> decide

theorem secure_plain (secure : Bool) : Plain (if secure then [49] else [48]) := by
  intro c member
  cases secure <;> simp at member <;> subst member <;> decide

theorem lineMembers_cookieLine {c : Cookie} (plain : PlainCookie c) :
    ∃ name value server path domain expires secure,
      lineMembers 7 (cookieLine c) = some [name, value, server, path, domain, expires, secure] ∧
        memberText name = c.name ∧ memberText value = c.value ∧ memberText server = c.server ∧
        memberText path = c.path ∧ memberText domain = c.domain ∧
        (∃ rest, expires.1 = formatLong c.expires ++ 9 :: rest) ∧
        secure.1 = (if c.secure then [49] else [48]) ++ [10] := by
  rw [cookieLine]
  simp only [List.append_assoc, List.cons_append]
  rw [lineMembers_tab plain.name, lineMembers_tab plain.value, lineMembers_tab plain.server,
    lineMembers_tab plain.path, lineMembers_tab plain.domain, lineMembers_tab (formatLong_plain _),
    lineMembers_newline (secure_plain _)]
  refine ⟨_, _, _, _, _, _, _, rfl, ?_, ?_, ?_, ?_, ?_, ⟨_, rfl⟩, rfl⟩
  · exact List.take_left
  · exact List.take_left
  · exact List.take_left
  · exact List.take_left
  · exact List.take_left

theorem loadLine_cookieLine {c : Cookie} (plain : PlainCookie c) (inTime : InTime c.expires) {now : Int}
    (dated : c.expires ≠ 0) (early : now < c.expires) (jar : CookieJar) :
    loadLine now jar (cookieLine c) =
      acceptCookie true { jar with servers := (getCookieServer jar.servers c.server).2 }
        { c with server := (getCookieServer jar.servers c.server).1 } := by
  obtain ⟨name, value, server, path, domain, expires, secure, members, nameEq, valueEq, serverEq, pathEq, domainEq,
    ⟨rest, expiresEq⟩, secureEq⟩ := lineMembers_cookieLine plain
  have time : atol expires.1 = c.expires := by rw [expiresEq, atol_formatLong inTime]
  have flag : decide (atoi secure.1 ≠ 0) = c.secure := by
    rw [secureEq]
    cases c.secure <;> decide +kernel
  rw [loadLine, members]
  simp only [time, nameEq, valueEq, serverEq, pathEq, domainEq, flag]
  rw [if_neg (by omega)]

end Members

end KcnTools.Cookies
