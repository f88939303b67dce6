import KcnTools.Protocol.UriParse
import Mathlib

/-!
`parse_uri` cut into what stands before the authority, the host and what follows the port.
-/

namespace KcnTools.Protocols

def skipSlashes (uristring : List UInt8) (backend : ProtocolBackend) (prefixEnd : Nat) : Except UriErrno Nat :=
  if byteAt uristring prefixEnd = 47 ∧ byteAt uristring (prefixEnd + 1) = 47 then
    if byteAt uristring (prefixEnd + 2) = 47 ∧ backend.needSlashAfterHost then .error .tooManySlashes
    else .ok (prefixEnd + 2)
  else if backend.needSlashes then .error .noSlashes
  else .ok prefixEnd

def familyDigit (uristring : List UInt8) (protocollen : Nat) : Nat × Nat :=
  let digit := byteAt uristring protocollen
  if isdigit digit then (digit.toNat - 48, protocollen + 1) else (0, protocollen)

def protocolLength (uristring : List UInt8) : Nat := getProtocolLength uristring % 2 ^ 16

def schemeProtocol (getUserProgram : List UInt8 → Bool) (uristring : List UInt8) : Protocol :=
  getProtocol getUserProgram (uristring.take (protocolLength uristring))

def parseBody (uri : Uri) (prefixEnd : Nat) : Except UriErrno Uri :=
  if (protocolBackend uri.protocol).freeSyntax then
    .ok { uri with data := prefixEnd, datalen := (uri.string.drop prefixEnd).length % 2 ^ 16 }
  else if uri.protocol = .file then
    let datalen := strcspn (uri.string.drop prefixEnd) [postChar, 35]
    .ok (parseFragment { uri with data := prefixEnd, datalen := datalen % 2 ^ 16 } (prefixEnd + datalen))
  else parseHost uri prefixEnd

def schemeUri (getUserProgram : List UInt8 → Bool) (uristring : List UInt8) : Uri :=
  initialUri uristring (schemeProtocol getUserProgram uristring) (protocolLength uristring)
    (familyDigit uristring (protocolLength uristring)).1

theorem skipSlashes_bind (uri : Uri) (colon : Nat) :
    (do
      let prefixEnd ←
        if byteAt uri.string (colon + 1) = 47 ∧ byteAt uri.string (colon + 1 + 1) = 47 then
          if byteAt uri.string (colon + 1 + 2) = 47 ∧
              (protocolBackend uri.protocol).needSlashAfterHost then
            .error UriErrno.tooManySlashes
          else .ok (colon + 1 + 2)
        else if (protocolBackend uri.protocol).needSlashes then .error .noSlashes
        else .ok (colon + 1)
      parseBody uri prefixEnd) =
    (skipSlashes uri.string (protocolBackend uri.protocol) (colon + 1)).bind (parseBody uri) := by
  rw [skipSlashes]
  split
  · split <;> rfl
  · split <;> rfl

theorem parseUri_eq (getUserProgram : List UInt8 → Bool) (uristring : List UInt8) :
    parseUri getUserProgram uristring =
      if uristring.isEmpty then .error .empty
      else if protocolLength uristring = 0 then .error .invalidProtocol
      else
        let colon := (familyDigit uristring (protocolLength uristring)).2
        if byteAt uristring colon ≠ 58 then .error .invalidProtocol
        else (skipSlashes uristring (protocolBackend (schemeProtocol getUserProgram uristring))
          (colon + 1)).bind (parseBody (schemeUri getUserProgram uristring)) := by
  unfold parseUri
  by_cases none : uristring.isEmpty = true
  · rw [if_pos none, if_pos none]
    rfl
  rw [if_neg none, if_neg none]
  by_cases nothing : getProtocolLength uristring % 2 ^ 16 = 0
  · rw [show protocolLength uristring = 0 from nothing]
    dsimp only
    rw [if_pos nothing]
    rfl
  rw [if_neg (show protocolLength uristring ≠ 0 from nothing)]
  dsimp only
  rw [if_neg nothing]
  by_cases digit : isdigit (byteAt uristring (getProtocolLength uristring % 2 ^ 16)) = true
  · have family : familyDigit uristring (protocolLength uristring) =
        ((byteAt uristring (protocolLength uristring)).toNat - 48, protocolLength uristring + 1) :=
      if_pos digit
    rw [schemeUri, family, if_pos digit]
    by_cases colon : byteAt uristring (getProtocolLength uristring % 2 ^ 16 + 1) ≠ 58
    · rw [if_pos (show byteAt uristring (protocolLength uristring + 1) ≠ 58 from colon)]
      dsimp only
      rw [if_pos colon]
      rfl
    · rw [if_neg (show ¬byteAt uristring (protocolLength uristring + 1) ≠ 58 from colon)]
      dsimp only
      rw [if_neg colon]
      exact skipSlashes_bind (initialUri uristring (schemeProtocol getUserProgram uristring)
        (protocolLength uristring) _) _
  · have family : familyDigit uristring (protocolLength uristring) = (0, protocolLength uristring) :=
      if_neg digit
    rw [schemeUri, family, if_neg digit]
    by_cases colon : byteAt uristring (getProtocolLength uristring % 2 ^ 16) ≠ 58
    · rw [if_pos (show byteAt uristring (protocolLength uristring) ≠ 58 from colon)]
      dsimp only
      rw [if_pos colon]
      rfl
    · rw [if_neg (show ¬byteAt uristring (protocolLength uristring) ≠ 58 from colon)]
      dsimp only
      rw [if_neg colon]
      exact skipSlashes_bind (initialUri uristring (schemeProtocol getUserProgram uristring)
        (protocolLength uristring) _) _

def Uri.marked (uri : Uri) (ipv6 : Bool) : Uri := { uri with ipv6 }

def hostPart (uristring : List UInt8) (uri : Uri) (prefixEnd : Nat) :
    Option (Nat × Nat) → Except UriErrno (Uri × Nat)
  | some (lbracket, rbracket) =>
      if rbracket - lbracket - 1 ≥ niMaxhost then .error UriErrno.ipv6Security
      else .ok ({ uri with host := some (lbracket + 1), hostlen := rbracket - lbracket - 1 },
        rbracket + strcspn (uristring.drop rbracket) [58, 47, 63])
  | none =>
      let hostEnd := prefixEnd + strcspn (uristring.drop prefixEnd) [58, 47, 63]
      let hostlen := (hostEnd - prefixEnd) % 2 ^ 16
      if hostlen ≠ 0 ∧ byteAt uristring (prefixEnd + hostlen - 1) = 46 then .error UriErrno.trailingDots
      else .ok ({ uri with host := some prefixEnd, hostlen }, hostEnd)

def dataStart (uristring : List UInt8) (uri : Uri) (hostEnd : Nat) : Except UriErrno Nat :=
  if byteAt uristring hostEnd = 47 then .ok (hostEnd + 1)
  else if (protocolBackend uri.protocol).needSlashAfterHost then
    if uri.hostlen = 0 then .error UriErrno.noHost else .error .noHostSlash
  else .ok hostEnd

def dataPart (uristring : List UInt8) (uri : Uri) (start : Nat) : Uri :=
  let prefixEnd := start + strcspn (uristring.drop start) [35, postChar]
  parseFragment { uri with data := start, datalen := (prefixEnd - start) % 2 ^ 16 } prefixEnd

theorem parseHost_eq (uri : Uri) (prefixEnd : Nat) :
    parseHost uri prefixEnd =
      let brackets := findBrackets uri.string prefixEnd
      let auth := parseAuth (uri.marked brackets.isSome) prefixEnd
      (hostPart uri.string auth.1 auth.2 brackets).bind fun host =>
        (parsePort host.1 host.2).bind fun port =>
          (dataStart uri.string port.1 port.2).bind fun start => .ok (dataPart uri.string port.1 start) := by
  have behind : ∀ result : Uri × Nat,
      (do
        let port ← parsePort result.1 result.2
        let hostEnd ←
          if byteAt uri.string port.2 = 47 then Except.ok (port.2 + 1)
          else if (protocolBackend port.1.protocol).needSlashAfterHost then
            if port.1.hostlen = 0 then .error UriErrno.noHost else .error .noHostSlash
          else .ok port.2
        let prefixEnd := hostEnd + strcspn (uri.string.drop hostEnd) [35, postChar]
        .ok (parseFragment { port.1 with data := hostEnd, datalen := (prefixEnd - hostEnd) % 2 ^ 16 }
          prefixEnd)) =
      (parsePort result.1 result.2).bind fun port =>
        (dataStart uri.string port.1 port.2).bind fun start => .ok (dataPart uri.string port.1 start) := by
    intro result
    refine bind_congr fun port => ?_
    simp only [dataStart]
    by_cases slash : byteAt uri.string port.2 = 47
    · rw [if_pos slash, if_pos slash]
      rfl
    rw [if_neg slash, if_neg slash]
    by_cases needs : (protocolBackend port.1.protocol).needSlashAfterHost = true
    · rw [if_pos needs, if_pos needs]
      split <;> rfl
    · rw [if_neg needs, if_neg needs]
      rfl
  unfold parseHost
  dsimp only [Uri.marked]
  cases findBrackets uri.string prefixEnd with
  | some brackets =>
      obtain ⟨lbracket, rbracket⟩ := brackets
      rw [hostPart]
      dsimp only
      by_cases long : rbracket - lbracket - 1 ≥ niMaxhost
      · rw [if_pos long, if_pos long]
        rfl
      · rw [if_neg long, if_neg long]
        exact behind _
  | none =>
      rw [hostPart]
      dsimp only
      split
      · rfl
      · exact behind _

end KcnTools.Protocols
