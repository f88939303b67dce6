import Mathlib.Data.List.Basic

/-!
The protocol table of `protocol/protocol.c` and the search for a protocol name.
Strings are lists of bytes without their terminating NUL.
-/

namespace KcnTools.Protocols

def ascii (chars : List Char) : List UInt8 := chars.map fun c => UInt8.ofNat c.toNat

def isdigit (c : UInt8) : Bool := 48 ≤ c && c ≤ 57

def isalnum (c : UInt8) : Bool :=
  isdigit c || (65 ≤ c && c ≤ 90) || (97 ≤ c && c ≤ 122)

def cTolower (c : UInt8) : UInt8 := if 65 ≤ c && c ≤ 90 then c + 32 else c

def byteAt (s : List UInt8) (position : Nat) : UInt8 := s.getD position 0

def cString (bytes : List UInt8) : List UInt8 := bytes.takeWhile (· != 0)

def strcspn (s : List UInt8) (reject : List UInt8) : Nat :=
  (s.takeWhile fun c => !reject.contains c).length

def strchr (s : List UInt8) (c : UInt8) : Option Nat := s.findIdx? (· == c)

inductive Protocol
  | about | bittorrent | data | file | finger | fsp | ftp | gopher | http | https | javascript
  | news | nntp | nntps | proxy | smb | snews
  | unknown | user | lua
  deriving DecidableEq

structure ProtocolBackend where
  name : List UInt8
  port : Nat
  needSlashes : Bool
  needSlashAfterHost : Bool
  freeSyntax : Bool
  needSsl : Bool
  deriving DecidableEq

def protocolBackend : Protocol → ProtocolBackend
  | .about => ⟨ascii ['a', 'b', 'o', 'u', 't'], 0, false, false, true, false⟩
  | .bittorrent =>
      ⟨ascii ['b', 'i', 't', 't', 'o', 'r', 'r', 'e', 'n', 't'], 0, false, false, true, false⟩
  | .data => ⟨ascii ['d', 'a', 't', 'a'], 0, false, false, true, false⟩
  | .file => ⟨ascii ['f', 'i', 'l', 'e'], 0, true, false, false, false⟩
  | .finger => ⟨ascii ['f', 'i', 'n', 'g', 'e', 'r'], 79, true, true, false, false⟩
  | .fsp => ⟨ascii ['f', 's', 'p'], 21, true, true, false, false⟩
  | .ftp => ⟨ascii ['f', 't', 'p'], 21, true, true, false, false⟩
  | .gopher => ⟨ascii ['g', 'o', 'p', 'h', 'e', 'r'], 70, true, true, false, false⟩
  | .http => ⟨ascii ['h', 't', 't', 'p'], 80, true, true, false, false⟩
  | .https => ⟨ascii ['h', 't', 't', 'p', 's'], 443, true, true, false, true⟩
  | .javascript =>
      ⟨ascii ['j', 'a', 'v', 'a', 's', 'c', 'r', 'i', 'p', 't'], 0, false, false, true, false⟩
  | .news => ⟨ascii ['n', 'e', 'w', 's'], 0, false, false, true, false⟩
  | .nntp => ⟨ascii ['n', 'n', 't', 'p'], 119, true, true, false, false⟩
  | .nntps => ⟨ascii ['n', 'n', 't', 'p', 's'], 563, true, true, false, true⟩
  | .proxy => ⟨ascii ['p', 'r', 'o', 'x', 'y'], 3128, true, true, false, false⟩
  | .smb => ⟨ascii ['s', 'm', 'b'], 139, true, true, false, false⟩
  | .snews => ⟨ascii ['s', 'n', 'e', 'w', 's'], 0, false, false, true, false⟩
  | .unknown => ⟨[], 0, false, false, true, false⟩
  | .user => ⟨ascii ['u', 's', 'e', 'r'], 0, false, false, false, false⟩
  | .lua => ⟨ascii ['c', 'u', 's', 't', 'o', 'm'], 0, false, false, true, false⟩

def namedProtocols : List Protocol :=
  [.about, .bittorrent, .data, .file, .finger, .fsp, .ftp, .gopher, .http, .https, .javascript,
    .news, .nntp, .nntps, .proxy, .smb, .snews]

def cStrncasecmp : List UInt8 → List UInt8 → Nat → Int
  | _, _, 0 => 0
  | s1, s2, n + 1 =>
      let c1 := cTolower (byteAt s1 0)
      let c2 := cTolower (byteAt s2 0)
      if c1 ≠ c2 then if c1 < c2 then -1 else 1
      else if c1 = 0 then 0
      else cStrncasecmp s1.tail s2.tail n

def searchProtocol (name : List UInt8) : Nat → Int → Int → Int → Option Protocol
  | 0, _, _, _ => none
  | fuel + 1, start, stop, middle =>
      if stop < start then none
      else
        match namedProtocols[middle.toNat]? with
        | none => none
        | some protocol =>
            let pname := (protocolBackend protocol).name
            let compare := cStrncasecmp pname name (min pname.length name.length)
            if compare = 0 ∧ pname.length = name.length then some protocol
            else
              let compare := if compare = 0 then
                if pname.length > name.length then 1 else -1 else compare
              let (start, stop) := if compare > 0 then (start, middle - 1) else (middle + 1, stop)
              searchProtocol name fuel start stop (Int.tdiv (start + stop) 2)

/-- `getUserProgram` tells which names the option tree `protocol.user` has a program for. -/
def getProtocol (getUserProgram : List UInt8 → Bool) (name : List UInt8) : Protocol :=
  match searchProtocol name namedProtocols.length 0 (namedProtocols.length - 1) 8 with
  | some protocol => protocol
  | none => if getUserProgram name then .user else .unknown

example : getProtocol (fun _ => false) (ascii ['F', 'T', 'P']) = .ftp := by decide

end KcnTools.Protocols
