import KcnTools.Protocol.UriParse

/-!
The parsers of a `Set-Cookie` string: `parse_cookie_str` of `cookies/parser.c` and
`parse_header_param` of `protocol/header.c`.
-/

namespace KcnTools.Cookies

open Protocols

def isspace (c : UInt8) : Bool := c == 32 || (9 ≤ c && c ≤ 13)

def trimEnd (test : UInt8 → Bool) (s : List UInt8) : List UInt8 := (s.reverse.dropWhile test).reverse

/-- The name and the value; `none` for an empty name and for a name with a space. -/
def parseCookieStr (str : List UInt8) : Option (List UInt8 × List UInt8) :=
  let isName := fun c => !([59, 61].contains c || isspace c)
  let name := str.takeWhile isName
  if name.isEmpty then none
  else
    match (str.dropWhile isName).dropWhile isspace with
    | [] => some (name, [])
    | c :: rest =>
        if c = 59 then some (name, [])
        else if c = 61 then
          -- `a===b` is `a=b`
          let value := (rest.dropWhile (· == 61)).dropWhile isspace
          some (name, trimEnd isspace (value.takeWhile (· != 59)))
        else none

def lws (c : UInt8) : Bool := c == 32 || c == 9

def lower (s : List UInt8) : List UInt8 := s.map cTolower

def findParam (name : List UInt8) : Nat → List UInt8 → Option (List UInt8)
  | 0, _ => none
  | fuel + 1, p =>
      match p.dropWhile (· != 59) with
      | [] => none
      | p =>
          let p := p.dropWhile fun c => c == 59 || c ≤ 32
          if p.length < name.length then none
          else if lower (p.take name.length) = lower name then some (p.drop name.length)
          else findParam name fuel p

def dropQuotes : Nat → List UInt8 → List UInt8
  | 0, p => p
  | fuel + 1, p =>
      if 1 < p.length ∧ p.head? = some 39 ∧ p.getLast? = some 39 then dropQuotes fuel p.tail.dropLast
      else p

def parseHeaderParam (str name : List UInt8) : Option (List UInt8) :=
  (findParam name (str.length + 1) str).map fun p =>
    let p := p.dropWhile fun c => c ≤ 32 || c == 61
    let value := trimEnd lws (p.takeWhile fun c => (32 < c || lws c) && c != 59)
    dropQuotes value.length value

end KcnTools.Cookies

/-!
The two domain tests of `cookies/cookies.c`: the one that a cookie passes when it is set, and
the one for sending it.
-/

namespace KcnTools.Cookies

open Protocols

def tlds : List (List UInt8) :=
  [ascii ['c', 'o', 'm'], ascii ['e', 'd', 'u'], ascii ['n', 'e', 't'],
    ascii ['o', 'r', 'g'], ascii ['g', 'o', 'v'], ascii ['m', 'i', 'l'],
    ascii ['i', 'n', 't'], ascii ['b', 'i', 'z'], ascii ['a', 'r', 'p', 'a'],
    ascii ['a', 'e', 'r', 'o'], ascii ['c', 'o', 'o', 'p'],
    ascii ['i', 'n', 'f', 'o'], ascii ['m', 'u', 's', 'e', 'u', 'm'],
    ascii ['n', 'a', 'm', 'e'], ascii ['p', 'r', 'o']]

def endWithKnownTld (s : List UInt8) : Option Nat :=
  (tlds.find? fun tld =>
    tld.length ≤ s.length && lower (s.drop (s.length - tld.length)) == tld).map fun tld =>
      s.length - tld.length

def dropDot (domain : List UInt8) : List UInt8 :=
  match domain with
  | 46 :: rest => rest
  | domain => domain

section

variable (isIpAddress : List UInt8 → Bool) (paranoidSecurity : Bool)

def neededDots (domain : List UInt8) : Nat :=
  if paranoidSecurity then
    match endWithKnownTld domain with
    | some (pos + 1) => if byteAt domain pos = 46 then 1 else 2
    | _ => 2
  else 1

def isDomainSecurityOk (domain server : List UInt8) : Bool :=
  let domain := dropDot domain
  if server.length < domain.length then false
  else if lower domain ≠ lower (server.drop (server.length - domain.length)) then false
  else if server.length = domain.length then true
  else if isIpAddress server then false
  else neededDots paranoidSecurity domain ≤ domain.count 46

end

def isInDomain (domain server : List UInt8) : Bool :=
  if server.length < domain.length then false
  else if domain.length = server.length then lower domain = lower server
  else
    let len := server.length - domain.length
    if byteAt server (len - 1) ≠ 46 then false
    else lower domain = lower (server.drop len)

/-- The host is the domain or ends with a dot and the domain, without regard to case. -/
def BelowDomain (domain host : List UInt8) : Prop :=
  lower host = lower domain ∨ ∃ front rest, host = front ++ 46 :: rest ∧ lower rest = lower domain

@[simp] theorem lower_length (s : List UInt8) : (lower s).length = s.length := List.length_map _

@[simp] theorem lower_append (s t : List UInt8) : lower (s ++ t) = lower s ++ lower t := List.map_append

theorem lower_length_eq {s t : List UInt8} (same : lower s = lower t) : s.length = t.length := by
  rw [← lower_length s, same, lower_length]

theorem cTolower_eq_dot (c : UInt8) : cTolower c = 46 ↔ c = 46 := by
  have all : ∀ bits : BitVec 8, cTolower ⟨bits⟩ = 46 ↔ (⟨bits⟩ : UInt8) = 46 := by decide +kernel
  exact all c.toBitVec

theorem drop_of_append {front rest : List UInt8} {length : Nat} (same : rest.length = length) :
    (front ++ rest).drop ((front ++ rest).length - length) = rest := by
  rw [List.length_append, same, Nat.add_sub_cancel]
  exact List.drop_left

theorem isInDomain_iff (domain host : List UInt8) : isInDomain domain host = true ↔ BelowDomain domain host := by
  rw [isInDomain]
  constructor
  · intro inside
    split at inside
    · cases inside
    split at inside
    next =>
      rw [decide_eq_true_eq] at inside
      exact .inl inside.symm
    next shorter apart =>
      simp only at inside
      split at inside
      · cases inside
      next dot =>
        rw [ne_eq, Decidable.not_not] at dot
        rw [decide_eq_true_eq] at inside
        obtain ⟨len, lenEq⟩ : ∃ len, host.length - domain.length = len + 1 :=
            ⟨host.length - domain.length - 1, by omega⟩
        rw [lenEq] at dot inside
        have inRange : len < host.length := by omega
        refine .inr ⟨host.take len, host.drop (len + 1), ?_, inside.symm⟩
        rw [byteAt, Nat.add_sub_cancel, List.getD_eq_getElem?_getD, List.getElem?_eq_getElem inRange, Option.getD_some]
          at dot
        rw [← dot, List.getElem_cons_drop, List.take_append_drop]
  · rintro (same | ⟨front, rest, rfl, same⟩)
    · have length := lower_length_eq same
      rw [if_neg (by omega), if_pos length.symm, decide_eq_true_eq]
      exact same.symm
    · have length := lower_length_eq same
      rw [if_neg (by simp; omega), if_neg (by simp; omega)]
      have here : (front ++ 46 :: rest).length - domain.length = front.length + 1 := by
        simp
        omega
      simp only [here]
      have dot : byteAt (front ++ 46 :: rest) (front.length + 1 - 1) = 46 := by
        simp [byteAt]
      rw [dot, if_neg (by simp), decide_eq_true_eq, List.append_cons, ← same]
      congr 1
      rw [List.drop_left']
      simp

end KcnTools.Cookies
