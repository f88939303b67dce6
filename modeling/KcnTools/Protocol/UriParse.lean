import KcnTools.Protocol.ProtocolTable
import Mathlib

/-!
`parse_uri` and `normalize_uri` of `protocol/uri.c`, in a build with IPv6. Pointers
into the string are offsets; the lengths are cut to the widths of their bit fields.
-/

namespace KcnTools.Protocols

def postChar : UInt8 := 1

def niMaxhost : Nat := 1025

structure Uri where
  string : List UInt8
  protocol : Protocol
  ipFamily : Nat
  user : Option Nat
  password : Option Nat
  host : Option Nat
  port : Option Nat
  data : Nat
  fragment : Option Nat
  post : Option Nat
  protocollen : Nat
  userlen : Nat
  passwordlen : Nat
  hostlen : Nat
  portlen : Nat
  datalen : Nat
  fragmentlen : Nat
  ipv6 : Bool
  deriving DecidableEq

inductive UriErrno
  | empty | invalidProtocol | noSlashes | tooManySlashes | trailingDots | noHost | noPortColon
  | noHostSlash | ipv6Security | invalidPort
  deriving DecidableEq

def getProtocolLength (url : List UInt8) : Nat :=
  let stop := (url.takeWhile fun c => isalnum c || [43, 45, 46].contains c).length
  let stop := if stop ≠ 0 && isdigit (byteAt url (stop - 1)) then stop - 1 else stop
  if byteAt url stop = 58 || isdigit (byteAt url stop) then stop else 0

def initialUri (uristring : List UInt8) (protocol : Protocol) (protocollen ipFamily : Nat) : Uri :=
  { string := uristring, protocol, ipFamily, user := none, password := none, host := none,
    port := none, data := 0, fragment := none, post := none, protocollen, userlen := 0,
    passwordlen := 0, hostlen := 0, portlen := 0, datalen := 0, fragmentlen := 0, ipv6 := false }

def parseFragment (uri : Uri) (position : Nat) : Uri :=
  let uristring := uri.string
  let (uri, position) :=
    if byteAt uristring position = 35 then
      let fragmentlen := strcspn (uristring.drop (position + 1)) [postChar] % 2 ^ 16
      ({ uri with fragment := some (position + 1), fragmentlen }, position + 1 + fragmentlen)
    else (uri, position)
  if byteAt uristring position = postChar then { uri with post := some (position + 1) } else uri

def findBrackets (uristring : List UInt8) (prefixEnd : Nat) : Option (Nat × Nat) := do
  let lbracket := prefixEnd + (← strchr (uristring.drop prefixEnd) 91)
  let rbracket := lbracket + (← strchr (uristring.drop lbracket) 93)
  if rbracket < prefixEnd + strcspn (uristring.drop prefixEnd) [47] then
    some (lbracket, rbracket)
  else none

def lastAt (uristring : List UInt8) : Nat → Nat → Nat
  | 0, hostEnd => hostEnd
  | fuel + 1, hostEnd =>
      let rest := uristring.drop (hostEnd + 1)
      if strcspn rest [64] < strcspn rest [47, 63] then
        lastAt uristring fuel (hostEnd + 1 + strcspn rest [64])
      else hostEnd

def parseAuth (uri : Uri) (prefixEnd : Nat) : Uri × Nat :=
  let uristring := uri.string
  let rest := uristring.drop prefixEnd
  let hostEnd := prefixEnd + strcspn rest [64]
  if prefixEnd + strcspn rest [47] > hostEnd ∧ byteAt uristring hostEnd ≠ 0 then
    let hostEnd := lastAt uristring uristring.length hostEnd
    let userEnd := (strchr rest 58).map fun index => prefixEnd + index
    match userEnd with
    | some userEnd =>
        if userEnd > hostEnd then
          ({ uri with user := some prefixEnd, userlen := (hostEnd - prefixEnd) % 2 ^ 16 },
            hostEnd + 1)
        else
          ({ uri with
              user := some prefixEnd
              userlen := (userEnd - prefixEnd) % 2 ^ 16
              password := some (userEnd + 1)
              passwordlen := (hostEnd - userEnd - 1) % 2 ^ 16 }, hostEnd + 1)
    | none =>
        ({ uri with user := some prefixEnd, userlen := (hostEnd - prefixEnd) % 2 ^ 16 },
          hostEnd + 1)
  else (uri, prefixEnd)

/-- `strtol` on digits, `none` when the value leaves `long`. -/
def strtol (digits : List UInt8) : Option Nat :=
  let value := digits.foldl (fun value c => 10 * value + (c.toNat - 48)) 0
  if value < 2 ^ 63 then some value else none

def validPort (digits : List UInt8) : Bool :=
  match strtol digits with
  | none => false
  | some value => value % 2 ^ 32 ≤ 65535

def parsePort (uri : Uri) (hostEnd : Nat) : Except UriErrno (Uri × Nat) :=
  let uristring := uri.string
  if byteAt uristring hostEnd ≠ 58 then .ok (uri, hostEnd)
  else
    let start := hostEnd + 1
    let portlen := strcspn (uristring.drop start) [47]
    if portlen % 2 ^ 8 = 0 then .error .noPortColon
    else if portlen % 2 ^ 8 ≠ portlen then .error .invalidPort
    else
      let digits := (uristring.drop start).take portlen
      if digits.all isdigit ∧ validPort digits then
        .ok ({ uri with port := some start, portlen }, start + portlen)
      else .error .invalidPort

def parseHost (uri : Uri) (prefixEnd : Nat) : Except UriErrno Uri := do
  let uristring := uri.string
  let brackets := findBrackets uristring prefixEnd
  let uri := { uri with ipv6 := brackets.isSome }
  let (uri, prefixEnd) := parseAuth uri prefixEnd
  let (uri, hostEnd) ← match brackets with
    | some (lbracket, rbracket) =>
        if rbracket - lbracket - 1 ≥ niMaxhost then .error UriErrno.ipv6Security
        else .ok ({ uri with host := some (lbracket + 1), hostlen := rbracket - lbracket - 1 },
          rbracket + strcspn (uristring.drop rbracket) [58, 47, 63])
    | none =>
        let hostEnd := prefixEnd + strcspn (uristring.drop prefixEnd) [58, 47, 63]
        let hostlen := (hostEnd - prefixEnd) % 2 ^ 16
        if hostlen ≠ 0 ∧ byteAt uristring (prefixEnd + hostlen - 1) = 46 then
          .error UriErrno.trailingDots
        else .ok ({ uri with host := some prefixEnd, hostlen }, hostEnd)
  let (uri, hostEnd) ← parsePort uri hostEnd
  let hostEnd ←
    if byteAt uristring hostEnd = 47 then .ok (hostEnd + 1)
    else if (protocolBackend uri.protocol).needSlashAfterHost then
      if uri.hostlen = 0 then .error UriErrno.noHost else .error .noHostSlash
    else .ok hostEnd
  let prefixEnd := hostEnd + strcspn (uristring.drop hostEnd) [35, postChar]
  .ok (parseFragment { uri with data := hostEnd, datalen := (prefixEnd - hostEnd) % 2 ^ 16 }
    prefixEnd)

def parseUri (getUserProgram : List UInt8 → Bool) (uristring : List UInt8) :
    Except UriErrno Uri := do
  if uristring.isEmpty then .error .empty
  let protocollen := getProtocolLength uristring % 2 ^ 16
  if protocollen = 0 then .error .invalidProtocol
  let protocol := getProtocol getUserProgram (uristring.take protocollen)
  let backend := protocolBackend protocol
  let digit := byteAt uristring protocollen
  let (ipFamily, prefixEnd) :=
    if isdigit digit then (digit.toNat - 48, protocollen + 1) else (0, protocollen)
  if byteAt uristring prefixEnd ≠ 58 then .error .invalidProtocol
  let prefixEnd := prefixEnd + 1
  let prefixEnd ←
    if byteAt uristring prefixEnd = 47 ∧ byteAt uristring (prefixEnd + 1) = 47 then
      if byteAt uristring (prefixEnd + 2) = 47 ∧ backend.needSlashAfterHost then
        .error .tooManySlashes
      else .ok (prefixEnd + 2)
    else if backend.needSlashes then .error .noSlashes
    else .ok prefixEnd
  let uri := initialUri uristring protocol protocollen ipFamily
  if backend.freeSyntax then
    .ok { uri with data := prefixEnd, datalen := (uristring.drop prefixEnd).length % 2 ^ 16 }
  else if protocol = .file then
    let datalen := strcspn (uristring.drop prefixEnd) [postChar, 35]
    .ok (parseFragment { uri with data := prefixEnd, datalen := datalen % 2 ^ 16 }
      (prefixEnd + datalen))
  else parseHost uri prefixEnd

end KcnTools.Protocols
