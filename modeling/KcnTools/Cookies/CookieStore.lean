import KcnTools.Cookies.CookieDomain
import KcnTools.Protocol.UriNormalize
import KcnTools.Lib.Decimal

/-!
The cookies of `cookies/cookies.c`: the list of cookies, the domains that occur in it and the
servers that the cookies came from. The list is written to a file and read back from it.
-/

namespace KcnTools.Cookies

open Decimal Protocols

structure Cookie where
  name : List UInt8
  value : List UInt8
  path : List UInt8
  domain : List UInt8
  server : List UInt8
  expires : Int
  secure : Bool
  deriving DecidableEq

structure CookieServer where
  host : List UInt8
  refcount : Nat
  deriving DecidableEq

structure CookieJar where
  cookies : List Cookie
  queries : List Cookie
  domains : List (List UInt8)
  servers : List CookieServer
  deriving DecidableEq

inductive CookiesAccept
  | none | ask | all
  deriving DecidableEq

structure CookiesOptions where
  acceptPolicy : CookiesAccept
  maxAge : Int
  paranoidSecurity : Bool

/-- What the code asks the system, and the dates that `parse_date` reads. -/
structure CookiesOutside where
  isIpAddress : List UInt8 → Bool
  parseDate : List UInt8 → Int
  time : Int

def emptyJar : CookieJar := ⟨[], [], [], []⟩

def wrapTime (value : Int) : Int := (value + 2 ^ 63) % 2 ^ 64 - 2 ^ 63

def uriHost (uri : Uri) : List UInt8 :=
  match uri.host with
  | none => []
  | some host => (uri.string.drop host).take uri.hostlen

def uriPath (uri : Uri) : List UInt8 :=
  if uri.protocol = .unknown then uri.string
  else
    let filename := uri.string.drop uri.data
    (if isUriDirSep uri.protocol (byteAt filename 0) then [] else [47]) ++
      if uri.datalen = 0 then [] else filename.takeWhile fun c => c != 0 && !endOfDir c

def getCookieServer (servers : List CookieServer) (host : List UInt8) :
    List UInt8 × List CookieServer :=
  match servers.findIdx? fun server => lower server.host = lower host with
  | none => (host, servers ++ [⟨host, 1⟩])
  | some index =>
      ((servers.map CookieServer.host).getD index [],
        servers.modify index fun server => { server with refcount := server.refcount + 1 })

def doneCookieServer (servers : List CookieServer) (host : List UInt8) : List CookieServer :=
  servers.filterMap fun server =>
    if server.host = host then
      if server.refcount - 1 = 0 then none else some { server with refcount := server.refcount - 1 }
    else some server

def doneCookies (servers : List CookieServer) (cookies : List Cookie) : List CookieServer :=
  cookies.foldl (fun servers cookie => doneCookieServer servers cookie.server) servers

section

variable (options : CookiesOptions) (outside : CookiesOutside)

def cookieExpires (str : List UInt8) : Int :=
  if options.maxAge = 0 then 0
  else
    match parseHeaderParam str (ascii ['e', 'x', 'p', 'i', 'r', 'e', 's']) with
    | none => 0
    | some date =>
        let expires := wrapTime (outside.parseDate date)
        if expires ≠ 0 ∧ 0 < options.maxAge then
          min expires (wrapTime (outside.time + options.maxAge * 24 * 3600))
        else expires

def cutPath (path : List UInt8) : List UInt8 :=
  if path.contains 47 then (path.reverse.dropWhile (· != 47)).reverse else path

def cookiePath (uri : Uri) (str : List UInt8) : List UInt8 :=
  match parseHeaderParam str (ascii ['p', 'a', 't', 'h']) with
  | none => cutPath (uriPath uri)
  | some path =>
      let path := if path.getLast? = some 47 then path else path ++ [47]
      if path.head? = some 47 then path else 47 :: path

/-- The domain to be tested: the one that is asked for or the host, without one leading dot. -/
def askedDomain (uri : Uri) (str : List UInt8) : List UInt8 :=
  dropDot ((parseHeaderParam str (ascii ['d', 'o', 'm', 'a', 'i', 'n'])).getD (uriHost uri))

def cookieDomain (uri : Uri) (str : List UInt8) : List UInt8 :=
  if isDomainSecurityOk outside.isIpAddress options.paranoidSecurity (askedDomain uri str) (uriHost uri) then
    askedDomain uri str
  else uriHost uri

def makeCookie (server : List UInt8) (uri : Uri) (str : List UInt8) : Option Cookie :=
  (parseCookieStr str).map fun (name, value) =>
    { name, value
      path := cookiePath uri str
      domain := cookieDomain options outside uri str
      server
      expires := cookieExpires options outside str
      secure := (parseHeaderParam str (ascii ['s', 'e', 'c', 'u', 'r', 'e'])).isSome }

end

def isDuplicate (cookie other : Cookie) : Bool :=
  lower other.name = lower cookie.name && lower other.domain = lower cookie.domain

def acceptCookie (loading : Bool) (jar : CookieJar) (cookie : Cookie) : CookieJar :=
  let kept := if loading then jar.cookies else jar.cookies.filter fun other => !isDuplicate cookie other
  let weeded := if loading then [] else jar.cookies.filter (isDuplicate cookie)
  { jar with
    cookies := cookie :: kept
    servers := doneCookies jar.servers weeded
    domains :=
      if jar.domains.any fun domain => lower domain = lower cookie.domain then jar.domains
      else cookie.domain :: jar.domains }

def setCookie (options : CookiesOptions) (outside : CookiesOutside) (jar : CookieJar) (uri : Uri)
    (str : List UInt8) : CookieJar :=
  if options.acceptPolicy = .none then jar
  else
    let (server, servers) := getCookieServer jar.servers (uriHost uri)
    match makeCookie options outside server uri str with
    | none => jar
    | some cookie =>
        let jar := { jar with servers }
        if options.acceptPolicy = .ask then { jar with queries := cookie :: jar.queries }
        else acceptCookie false jar cookie

def isPathPrefix (d s : List UInt8) : Bool := d.length ≤ s.length && d = s.take d.length

/-- The loop of `send_cookies`: the cookies that stay, those that are deleted, and the header. -/
def sendLoop (uri : Uri) (now : Int) : List Cookie → List UInt8 → List Cookie × List Cookie × List UInt8
  | [], header => ([], [], header)
  | c :: rest, header =>
      if !isInDomain c.domain (uriHost uri) || !isPathPrefix c.path (uriPath uri) then
        let (kept, deleted, header) := sendLoop uri now rest header
        (c :: kept, deleted, header)
      else if c.expires ≠ 0 ∧ c.expires ≤ now then
        let (kept, deleted, header) := sendLoop uri now rest header
        (kept, c :: deleted, header)
      else if c.secure ∧ uri.protocol ≠ .https then
        let (kept, deleted, header) := sendLoop uri now rest header
        (c :: kept, deleted, header)
      else
        let header := if header.length ≠ 0 then header ++ [59, 32] else header
        let (kept, deleted, header) := sendLoop uri now rest (header ++ c.name ++ 61 :: c.value)
        (c :: kept, deleted, header)

def sendCookies (jar : CookieJar) (uri : Uri) (now : Int) : CookieJar × Option (List UInt8) :=
  if uri.host = none then (jar, none)
  else if jar.domains.any fun domain => isInDomain domain (uriHost uri) then
    let (kept, deleted, header) := sendLoop uri now jar.cookies []
    ({ jar with cookies := kept, servers := doneCookies jar.servers deleted },
      if header.length = 0 then none else some header)
  else (jar, none)

def clearCookies (jar : CookieJar) : CookieJar :=
  ⟨[], [], [], doneCookies (doneCookies jar.servers jar.cookies) jar.queries⟩

def atol (s : List UInt8) : Int :=
  let value := fun digits : List UInt8 => (decimalValue (digits.takeWhile isdigit) : Int)
  match s.dropWhile isspace with
  | 45 :: rest => max (-value rest) (-2 ^ 63)
  | 43 :: rest => min (value rest) (2 ^ 63 - 1)
  | digits => min (value digits) (2 ^ 63 - 1)

def atoi (s : List UInt8) : Int := (atol s + 2 ^ 31) % 2 ^ 32 - 2 ^ 31

def bufferSize : Nat := 6 * 1024

def fgetsLength (file : List UInt8) : Nat :=
  match (file.take (bufferSize - 1)).findIdx? (· == 10) with
  | some index => index + 1
  | none => min file.length (bufferSize - 1)

def bufferedLines : Nat → List UInt8 → List (List UInt8)
  | 0, _ => []
  | fuel + 1, file =>
      if file = [] then []
      else cString (file.take (fgetsLength file)) :: bufferedLines fuel (file.drop (fgetsLength file))

/-- Each member of a line with the rest of the line from its start on, and its length. -/
def lineMembers : Nat → List UInt8 → Option (List (List UInt8 × Nat))
  | 0, _ => some []
  | count + 1, q =>
      match strchr q 9 <|> if count = 0 then strchr q 10 else none with
      | none => none
      | some length => (lineMembers count (q.drop (length + 1))).map ((q, length) :: ·)

def memberText (member : List UInt8 × Nat) : List UInt8 := member.1.take member.2

def loadLine (now : Int) (jar : CookieJar) (line : List UInt8) : CookieJar :=
  match lineMembers 7 line with
  | some [name, value, server, path, domain, expires, secure] =>
      if atol expires.1 = 0 ∨ atol expires.1 ≤ now then jar
      else
        let (host, servers) := getCookieServer jar.servers (memberText server)
        acceptCookie true { jar with servers }
          { name := memberText name
            value := memberText value
            path := memberText path
            domain := memberText domain
            server := host
            expires := atol expires.1
            secure := atoi secure.1 ≠ 0 }
  | _ => jar

def loadCookies (jar : CookieJar) (file : Option (List UInt8)) (now : Int) : CookieJar :=
  match file with
  | none => clearCookies jar
  | some file => (bufferedLines (file.length + 1) file).foldl (loadLine now) (clearCookies jar)

def formatLong (value : Int) : List UInt8 :=
  (if value < 0 then [45] else []) ++ decimal value.natAbs

def cookieLine (c : Cookie) : List UInt8 :=
  c.name ++ 9 :: c.value ++ 9 :: c.server ++ 9 :: c.path ++ 9 :: c.domain ++ 9 :: formatLong c.expires ++
    9 :: (if c.secure then [49] else [48]) ++ [10]

def saveCookies (jar : CookieJar) (now : Int) : List UInt8 :=
  (jar.cookies.filter fun c => !(c.expires == 0 || c.expires ≤ now)).flatMap cookieLine

end KcnTools.Cookies
