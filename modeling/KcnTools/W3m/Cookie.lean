import Mathlib.Data.List.DropRight
import KcnTools.Cookies.CookieStore

/-!
The cookies of the pager: `cookie.c`. The regular expression that recognises an address,
the resolver and the printing of a URL are parameters.
-/

namespace KcnTools.W3m

open Cookies (lower atoi formatLong)
open Protocols (ascii isdigit)

inductive Scheme where
  | http | gopher | ftp | ftpdir | local | localCgi | exec | nntp | nntpGroup | news | newsGroup
  | data | mailto | https | missing | unknown
deriving DecidableEq

structure ParsedURL where
  scheme : Scheme
  user : Option (List UInt8)
  pass : Option (List UInt8)
  host : Option (List UInt8)
  port : Int
  file : List UInt8
  realFile : Option (List UInt8)
  query : Option (List UInt8)
  label : Option (List UInt8)
  isNocache : Bool
deriving DecidableEq

structure CookieFlag where
  use : Bool
  secure : Bool
  domain : Bool
  path : Bool
  discard : Bool
deriving DecidableEq

/-- `struct cookie`; `expires` is -1 for the cookie of a session. -/
structure Cookie where
  url : ParsedURL
  name : List UInt8
  value : List UInt8
  expires : Int
  path : List UInt8
  domain : List UInt8
  comment : Option (List UInt8)
  commentURL : Option (List UInt8)
  portl : List Int
  version : Int
  flag : CookieFlag
deriving DecidableEq

structure CookieJar where
  cookies : List Cookie
  isSaved : Bool

structure CookieConfig where
  /-- `regexMatch` finds four numbers with dots in between. -/
  isAddress : List UInt8 → Bool
  fqdn : List UInt8 → Option (List UInt8)
  /-- `Cookie_avoid_wrong_number_of_dots_domains`. -/
  avoidWrongNumberOfDots : List (List UInt8)
  defaultUseCookie : Bool
  parsedURL2Str : ParsedURL → List UInt8

def totalDotNumber (s : List UInt8) (maxCount : Nat) : Nat := min (s.count 46) maxCount

def containNoDots (s : List UInt8) : Bool := totalDotNumber s 1 == 0

def localDomain : List UInt8 := [46, 108, 111, 99, 97, 108]

section Matching

variable (isAddress : List UInt8 → Bool)

def domainMatch (host domain : List UInt8) : Option Nat :=
  if isAddress host && isAddress domain then
    if lower host = lower domain then some 0 else none
  else if !isAddress host && !isAddress domain then
    if lower domain = [46] ∨ lower domain = localDomain then
      if domain.length = 1 || containNoDots host then some host.length else none
    else if domain.head? = some 46 ∧ lower host = lower domain.tail then some 0
    else
      let offset : Int := if domain.head? = some 46 then (host.length : Int) - domain.length else 0
      if 0 ≤ offset ∧ lower (host.drop offset.toNat) = lower domain then some offset.toNat else none
  else none

end Matching

def makePortlistFrom (first : List Int) (port : List UInt8) : List Int :=
  match _more : port.dropWhile fun c => !isdigit c with
  | [] => first
  | c :: p =>
      makePortlistFrom (atoi ((c :: p).takeWhile isdigit) :: first) ((c :: p).dropWhile isdigit)
termination_by port.length
decreasing_by
  have digit : isdigit c = true := by
    have nonempty : port.dropWhile (fun c => !isdigit c) ≠ [] := by
      rw [_more]
      exact List.cons_ne_nil _ _
    have head := List.head_dropWhile_not _ nonempty
    simpa [_more] using head
  have shorter := (List.dropWhile_suffix fun c => !isdigit c : _ <:+ port).length_le
  have rest := (List.dropWhile_suffix isdigit : _ <:+ p).length_le
  rw [_more, List.length_cons] at shorter
  rw [List.dropWhile_cons_of_pos digit]
  omega

def makePortlist (port : List UInt8) : List Int := makePortlistFrom [] port

def portlist2str (first : List Int) : List UInt8 := [44, 32].intercalate (first.map formatLong)

def portMatch (first : List Int) (port : Int) : Bool := first.contains port

section Expiry

variable (now : Int)

def Cookie.isExpired (p : Cookie) : Bool := p.expires != -1 && p.expires < now

def dropExpired (isSaved : Bool) : List Cookie → CookieJar
  | [] => ⟨[], isSaved⟩
  | p :: rest =>
      if p.isExpired now then dropExpired (isSaved && p.flag.discard) rest
      else
        let jar := dropExpired isSaved rest
        { jar with cookies := p :: jar.cookies }

def checkExpiredCookies (jar : CookieJar) : CookieJar :=
  match jar.cookies with
  | [] => jar
  | p :: rest =>
      let (cookies, isSaved) := if p.isExpired now then (rest, jar.isSaved && p.flag.discard) else
          (p :: rest, jar.isSaved)
      match cookies with
      | [] => ⟨[], isSaved⟩
      | p :: rest =>
          let jar := dropExpired now isSaved rest
          { jar with cookies := p :: jar.cookies }

end Expiry

def makeCookie (cookie : Cookie) : List UInt8 := cookie.name ++ 61 :: cookie.value

section Sending

variable (config : CookieConfig)

def matchCookie (pu : ParsedURL) (cookie : Cookie) (domainname : Option (List UInt8)) : Bool :=
  match domainname with
  | none => false
  | some domainname =>
      (domainMatch config.isAddress domainname cookie.domain).isSome && cookie.path.isPrefixOf pu.file &&
        (!cookie.flag.secure || pu.scheme == .https) && (cookie.portl.isEmpty || portMatch cookie.portl pu.port)

def requestName (pu : ParsedURL) (p : Cookie) : Option (List UInt8) :=
  if p.version = 0 then pu.host.bind config.fqdn else pu.host

def selectCookie (pu : ParsedURL) (fco : List Cookie) (p : Cookie) : List Cookie :=
  if p.flag.use && matchCookie config pu p (requestName config pu p) &&
      !fco.any (fun p1 => lower p1.name == lower p.name) then
    p :: fco
  else fco

def selectCookies (pu : ParsedURL) (cookies : List Cookie) : List Cookie :=
  cookies.foldl (selectCookie config pu) []

def cookieAttributes (p : Cookie) : List UInt8 :=
  (if p.flag.path then ascii [';', ' ', '$', 'P', 'a', 't', 'h', '='] ++ 34 :: p.path ++ [34] else []) ++
    (if p.flag.domain then ascii [';', ' ', '$', 'D', 'o', 'm', 'a', 'i', 'n', '='] ++ 34 :: p.domain ++
    [34] else []) ++
    (if p.portl.isEmpty then [] else ascii [';', ' ', '$', 'P', 'o', 'r', 't', '='] ++ 34 :: portlist2str p.portl ++
    [34])

def cookieHeader : List Cookie → Option (List UInt8)
  | [] => none
  | fco :: rest =>
      let version := (fco :: rest).foldl (fun version p => max version p.version) 0
      some ((if 0 < version then ascii ['$', 'V', 'e', 'r', 's', 'i', 'o', 'n', '='] ++ 34 :: formatLong version ++
        [34, 59, 32] else []) ++
        makeCookie fco ++
        rest.flatMap fun p => [59, 32] ++ makeCookie p ++ if 0 < version then cookieAttributes p else [])

def sentCookies (pu : ParsedURL) (now : Int) (jar : CookieJar) : List Cookie :=
  selectCookies config pu (checkExpiredCookies now jar).cookies

def findCookie (pu : ParsedURL) (now : Int) (jar : CookieJar) : Option (List UInt8) × CookieJar :=
  (cookieHeader (sentCookies config pu now jar), checkExpiredCookies now jar)

/-- What `save_cookies` writes; `none` is no write. -/
def savedCookies (noRcDir : Bool) (now : Int) (jar : CookieJar) : Option (List Cookie) :=
  let jar := checkExpiredCookies now jar
  if jar.cookies.isEmpty || jar.isSaved || noRcDir then none
  else some (jar.cookies.filter fun p => p.flag.use && !p.flag.discard)

end Sending

inductive CookieError where
  | especial | epath | enodot | edom | ebadhost | eport
deriving DecidableEq

def CookieError.overridable : CookieError → Bool
  | .enodot | .edom | .ebadhost => true
  | .especial | .epath | .eport => false

structure CookieRequest where
  pu : ParsedURL
  name : List UInt8
  value : List UInt8
  expires : Int
  domain : Option (List UInt8)
  path : Option (List UInt8)
  secure : Bool
  discard : Bool
  override : Bool
  comment : Option (List UInt8)
  version : Int
  port : Option (List UInt8)
  commentURL : Option (List UInt8)

def specialDomain : List (List UInt8) :=
  [[46, 99, 111, 109], [46, 101, 100, 117], [46, 103, 111, 118], [46, 109, 105, 108], [46, 110, 101, 116],
    [46, 111, 114, 103], [46, 105, 110, 116]]

def endsWith (domain tail : List UInt8) : Bool :=
  tail.length ≤ domain.length && lower (domain.drop (domain.length - tail.length)) == lower tail

section Adding

variable (config : CookieConfig)

def checkAvoidWrongNumberOfDotsDomain (domain : List UInt8) : Bool :=
  config.avoidWrongNumberOfDots.any fun item => (domainMatch config.isAddress domain item).isSome

def CookieRequest.cookieError (request : CookieRequest) (err : CookieError) (failed : Bool) :
    Except CookieError Unit :=
  if failed && (!err.overridable || !request.override) then .error err else .ok ()

def CookieRequest.domainname (request : CookieRequest) : Option (List UInt8) :=
  if request.version = 0 then request.pu.host.bind config.fqdn else request.pu.host

def dottedDomain (version : Int) (domainname domain : List UInt8) : List UInt8 :=
  if domain.head? ≠ some 46 ∧ (0 < version ∨ lower domainname ≠ lower domain) then 46 :: domain else domain

def CookieRequest.checkDots (request : CookieRequest) (domain : List UInt8) : Except CookieError Unit :=
  if request.version = 0 then
    let n := totalDotNumber domain 3
    if n < 2 then request.cookieError .especial (!checkAvoidWrongNumberOfDotsDomain config domain)
    else if n = 2 then
      request.cookieError .especial
        (!specialDomain.any (endsWith domain) && !checkAvoidWrongNumberOfDotsDomain config domain)
    else .ok ()
  else request.cookieError .enodot (lower domain != localDomain && containNoDots (domain.drop 1))

def CookieRequest.checkDomain (request : CookieRequest) (domainname : List UInt8) :
    Option (List UInt8) → Except CookieError Unit
  | none => .ok ()
  | some domain => do
      request.checkDots config domain
      let dp := domainMatch config.isAddress domainname domain
      request.cookieError .edom dp.isNone
      request.cookieError .ebadhost
        (0 < request.version && !containNoDots (domainname.take (dp.getD domainname.length)))

def CookieRequest.checkPath (request : CookieRequest) : Except CookieError Unit :=
  match request.path with
  | none => .ok ()
  | some path => request.cookieError .epath (0 < request.version && !path.isPrefixOf request.pu.file)

def CookieRequest.checkPort (request : CookieRequest) : Except CookieError (List Int) :=
  match request.port with
  | none => .ok []
  | some port => do
      let portlist := makePortlist port
      request.cookieError .eport (!portlist.isEmpty && !portMatch portlist request.pu.port)
      .ok portlist

def defaultPath (file : List UInt8) : List UInt8 := (file.rdropWhile (· != 47)).dropLast

def toChar (value : Int) : Int := (value + 2 ^ 7) % 2 ^ 8 - 2 ^ 7

def getCookieInfo (cookies : List Cookie) (domain path name : List UInt8) : Option Nat :=
  cookies.findIdx? fun p => lower p.domain == lower domain && p.path == path && lower p.name == lower name

def CookieRequest.cookie (request : CookieRequest) (use : Bool) (domain path : List UInt8) (portl : List Int) :
    Cookie where
  url := request.pu
  name := request.name
  value := request.value
  expires := request.expires
  path := path
  domain := domain
  comment := request.comment
  commentURL := request.commentURL
  portl := portl
  version := toChar request.version
  flag := ⟨use, request.secure, request.domain.isSome, request.path.isSome, request.discard || request.expires == -1⟩

def CookieRequest.store (request : CookieRequest) (domain path : List UInt8) (portl : List Int) (jar : CookieJar) :
    CookieJar where
  cookies :=
    match getCookieInfo jar.cookies domain path request.name with
    | some index => jar.cookies.modify index fun p => request.cookie p.flag.use domain path portl
    | none => request.cookie config.defaultUseCookie domain path portl :: jar.cookies
  isSaved := jar.isSaved && (request.discard || request.expires == -1)

def addCookie (request : CookieRequest) (now : Int) (jar : CookieJar) : Except CookieError CookieJar :=
  match request.domainname config with
  | none => .error .enodot
  | some domainname => do
      let domain := request.domain.map (dottedDomain request.version domainname)
      request.checkDomain config domainname domain
      request.checkPath
      let portlist ← request.checkPort
      let path := request.path.getD (defaultPath request.pu.file)
      .ok (checkExpiredCookies now (request.store config (domain.getD domainname) path portlist jar))

end Adding

end KcnTools.W3m
