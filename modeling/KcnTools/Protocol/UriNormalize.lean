import KcnTools.Protocol.UriParse

/-!
`normalize_uri` of `protocol/uri.c`: the loop that removes directory elevators from a
path in place, and the function on strings that it computes.
-/

namespace KcnTools.Protocols

def endOfDir (c : UInt8) : Bool := c == postChar || c == 35 || c == 59 || c == 63

def dirSep (c : UInt8) : Bool := c == 47

def isUriDirSep (protocol : Protocol) (c : UInt8) : Bool :=
  if protocol = .file then dirSep c else c == 47

/-- What one turn of the loop in `normalize_uri` finds at `src`. -/
inductive PathStep
  | endOfPath
  | lastDot
  | skipDot
  | lastElevator
  | elevator
  | skipSlash
  | copy
  deriving DecidableEq

def pathStep (isSep : UInt8 → Bool) (src : Nat → UInt8) : PathStep :=
  if endOfDir (src 0) then .endOfPath
  else if !isSep (src 0) then .copy
  else if src 1 = 46 then
    if src 2 = 0 then .lastDot
    else if isSep (src 2) then .skipDot
    else if src 2 = 46 && (isSep (src 3) || src 3 = 0) then
      if src 3 = 0 then .lastElevator else .elevator
    else .copy
  else if isSep (src 1) then .skipSlash
  else .copy

def seekSep (isSep : UInt8 → Bool) (buffer : List UInt8) (path : Nat) : Nat → Nat
  | 0 => 0
  | dest + 1 =>
      if dest + 1 > path then
        if isSep (byteAt buffer dest) then dest else seekSep isSep buffer path dest
      else dest + 1

def backOut (isSep : UInt8 → Bool) (buffer : List UInt8) (path dest : Nat) : Nat :=
  seekSep isSep buffer path (if dest > path then dest - 1 else dest)

def endWith (buffer : List UInt8) (dest : Nat) (c : UInt8) : List UInt8 :=
  (buffer.set dest c).set (dest + 1) 0

def moveString (buffer : List UInt8) (dest src : Nat) : List UInt8 :=
  let string := cString (buffer.drop src)
  buffer.take dest ++ string ++ 0 :: buffer.drop (dest + string.length + 1)

def normalizeLoop (isSep : UInt8 → Bool) (path : Nat) :
    Nat → List UInt8 → Nat → Nat → List UInt8
  | 0, buffer, _, _ => buffer
  | fuel + 1, buffer, src, dest =>
      if byteAt buffer dest = 0 then buffer
      else match pathStep isSep fun index => byteAt buffer (src + index) with
        | .endOfPath => moveString buffer dest src
        | .lastDot => endWith buffer dest (byteAt buffer src)
        | .skipDot => normalizeLoop isSep path fuel buffer (src + 2) dest
        | .lastElevator =>
            endWith buffer (backOut isSep buffer path dest) (byteAt buffer src)
        | .elevator =>
            normalizeLoop isSep path fuel buffer (src + 3) (backOut isSep buffer path dest)
        | .skipSlash => normalizeLoop isSep path fuel buffer (src + 1) dest
        | .copy =>
            let c := byteAt buffer src
            normalizeLoop isSep path fuel (buffer.set dest c) (src + 1)
              (if c = 0 then dest else dest + 1)

def lowercase (uristring : List UInt8) (start length : Nat) : List UInt8 :=
  uristring.take start ++ ((uristring.drop start).take length).map cTolower ++
    uristring.drop (start + length)

/-- Parses and lowercases the real URI behind any proxy URIs; `none` when it does not
parse. The result is the string and the parsed URI with offsets into that string. -/
def lowercaseUri (getUserProgram : List UInt8 → Bool) :
    Nat → List UInt8 → Nat → List UInt8 × Option (Nat × Uri)
  | 0, uristring, _ => (uristring, none)
  | fuel + 1, uristring, start =>
      match parseUri getUserProgram (uristring.drop start) with
      | .error _ => (uristring, none)
      | .ok uri =>
          let uristring := lowercase uristring start uri.protocollen
          let uristring := match uri.host with
            | some host => lowercase uristring (start + host) uri.hostlen
            | none => uristring
          if uri.protocol = .proxy then
            lowercaseUri getUserProgram fuel uristring (start + uri.data)
          else (uristring, some (start, uri))

def normalizeUri (getUserProgram : List UInt8 → Bool) (uristring : List UInt8) : List UInt8 :=
  match lowercaseUri getUserProgram (uristring.length + 1) uristring 0 with
  | (uristring, none) => uristring
  | (uristring, some (start, uri)) =>
      let backend := protocolBackend uri.protocol
      if backend.freeSyntax then uristring
      else
        let needSlash := if uri.protocol ≠ .unknown ∧ backend.needSlashAfterHost then 1 else 0
        let path := start + uri.data - needSlash
        cString (normalizeLoop (isUriDirSep uri.protocol) path (uristring.length + 2) uristring
          path path)

end KcnTools.Protocols
