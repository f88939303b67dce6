import Mathlib.Data.List.Basic

/-! The substitution of w3m's mailcap commands (mailcap.c, with `matchattr` of file.c and
`strcasestr` of indep.c). A C string is the list of its bytes without the NUL. -/

namespace KcnTools.W3m

def isSpaceByte (c : UInt8) : Bool := (9 ≤ c && c ≤ 13) || c = 32
def isAlphaByte (c : UInt8) : Bool := (65 ≤ c && c ≤ 90) || (97 ≤ c && c ≤ 122)
def isAlnumByte (c : UInt8) : Bool := isAlphaByte c || (48 ≤ c && c ≤ 57)
def isEndl (c : UInt8) : Bool := c = 0 || c = 13 || c = 10

def lowerByte (c : UInt8) : UInt8 := if 65 ≤ c ∧ c ≤ 90 then c + 32 else c

def strncasecmpEq (p attr : List UInt8) : Bool := (attr.map lowerByte).isPrefixOf (p.map lowerByte)

def strcasestr : List UInt8 → List UInt8 → Option (List UInt8 × List UInt8)
  | s1, [] => some ([], s1)
  | [], _ :: _ => none
  | c :: s1, s2 =>
      if strncasecmpEq (c :: s1) s2 then some ([], c :: s1)
      else (strcasestr s1 s2).map fun (before, found) => (c :: before, found)

/-- The loop of `matchattr`; `q` counts the bytes behind the last one that is no blank. -/
def matchattrLoop (quoted : Bool) (value : List UInt8) (q : Option Nat) : List UInt8 → List UInt8
  | [] => value.take (value.length - q.getD 0)
  | c :: p =>
      if isEndl c || (!quoted && c = 59) then value.take (value.length - q.getD 0)
      else
        let q := if isSpaceByte c then q.map (· + 1) else some 0
        if c = 34 then matchattrLoop (!quoted) value q p else matchattrLoop quoted (value ++ [c]) q p

def matchattr (p attr : List UInt8) : Option (List UInt8) :=
  if strncasecmpEq p attr then
    match (p.drop attr.length).dropWhile isSpaceByte with
    | [] => some []
    | c :: p => if c = 61 then some (matchattrLoop false [] none (p.dropWhile isSpaceByte)) else some []
  else none

structure McFlag where
  squoted : Bool
  dquoted : Bool
  deriving DecidableEq

def McFlag.isZero (flag : McFlag) : Bool := !flag.squoted && !flag.dquoted

def quoteMailcapByte (flag : McFlag) (c : UInt8) : List UInt8 :=
  if c = 36 ∨ c = 96 ∨ c = 34 ∨ c = 92 then if flag.squoted then [c] else [92, c]
  else if c = 39 ∧ flag.squoted then [39, 92, 39, 39]
  else if c = 95 ∨ c = 46 ∨ c = 58 ∨ c = 47 then [c]
  else if flag.isZero ∧ isAlnumByte c = false then [92, c]
  else [c]

def quoteMailcap (s : List UInt8) (flag : McFlag) : List UInt8 := s.flatMap (quoteMailcapByte flag)

inductive McStatus
  | normal
  | prec
  | prec2
  | quoted
  deriving DecidableEq

inductive McDirective
  | name
  | type
  | attr (attr : List UInt8)
  deriving DecidableEq

inductive McPiece
  /-- `Strcat_char` -/
  | char (c : UInt8)
  /-- `Strcat_charp` of the `quote_mailcap` of a value; for a value that is missing nothing is added -/
  | quoted (directive : McDirective) (value : Option (List UInt8)) (flag : McFlag)
  deriving DecidableEq

def McPiece.text : McPiece → List UInt8
  | .char c => [c]
  | .quoted _ none _ => []
  | .quoted _ (some value) flag => quoteMailcap value flag

/-- The bits `MCSTAT_REPNAME`, `MCSTAT_REPTYPE` and `MCSTAT_REPPARAM`. -/
structure McStat where
  repname : Bool
  reptype : Bool
  repparam : Bool
  deriving DecidableEq

structure McArgs where
  type : Option (List UInt8)
  name : Option (List UInt8)
  attr : Option (List UInt8)

structure McState where
  str : List McPiece
  tmp : List UInt8
  status : McStatus
  prevStatus : McStatus
  sp : Nat
  flag : McFlag
  mcStat : McStat

/-- The value that `%{tmp}` is replaced by. Only the first place of the name in `attr` is tried. -/
def attrValue (attr : Option (List UInt8)) (tmp : List UInt8) : Option (List UInt8) :=
  attr.bind fun attr => (strcasestr attr tmp).bind fun (before, q) =>
    if before.getLast?.all fun c => isSpaceByte c || c = 59 then matchattr q tmp else none

def trackQuote (flag0 flag : McFlag) (c : UInt8) : McFlag :=
  if c = 39 then
    if flag0.isZero && flag.squoted then { flag with squoted := false }
    else if flag.isZero then { flag with squoted := true }
    else flag
  else if c = 34 then
    if flag0.isZero && flag.dquoted then { flag with dquoted := false }
    else if flag.isZero then { flag with dquoted := true }
    else flag
  else flag

def unquoteMailcapStep (args : McArgs) (flag0 : McFlag) (s : McState) (c : UInt8) : McState :=
  if s.status = .quoted then
    if s.prevStatus = .prec2 then { s with tmp := s.tmp ++ [c], status := s.prevStatus }
    else { s with str := s.str ++ [.char c], status := s.prevStatus }
  else if c = 92 then { s with prevStatus := s.status, status := .quoted }
  else match s.status with
    | .normal =>
        if c = 37 then { s with status := .prec }
        else { s with flag := trackQuote flag0 s.flag c, str := s.str ++ [.char c] }
    | .prec =>
        if isAlphaByte c then
          if c = 115 then
            { s with
              str := s.str ++ [.quoted .name args.name s.flag]
              mcStat := { s.mcStat with repname := s.mcStat.repname || args.name.isSome }
              status := .normal }
          else if c = 116 then
            { s with
              str := s.str ++ [.quoted .type args.type s.flag]
              mcStat := { s.mcStat with reptype := s.mcStat.reptype || args.type.isSome }
              status := .normal }
          else { s with status := .normal }
        else if c = 123 then { s with status := .prec2, tmp := [] }
        -- the state stays that behind a percent sign
        else if c = 37 then { s with str := s.str ++ [.char c] }
        else s
    | .prec2 =>
        if s.sp > 0 ∨ c = 123 then
          { s with
            tmp := s.tmp ++ [c]
            sp := if c = 123 then s.sp + 1 else if c = 125 then s.sp - 1 else s.sp }
        else if c = 125 then
          let value := attrValue args.attr s.tmp
          { s with
            str := s.str ++ [.quoted (.attr s.tmp) value s.flag]
            tmp := value.getD s.tmp
            mcStat := { s.mcStat with repparam := s.mcStat.repparam || value.isSome }
            status := .normal }
        else { s with tmp := s.tmp ++ [c] }
    | .quoted => s

def unquoteMailcapLoop (qstr : List UInt8) (args : McArgs) (flag0 : McFlag) : McState :=
  qstr.foldl (unquoteMailcapStep args flag0) ⟨[], [], .normal, .normal, 0, flag0, ⟨false, false, false⟩⟩

def mailcapPieces (qstr : List UInt8) (args : McArgs) : List McPiece :=
  (unquoteMailcapLoop qstr args ⟨false, false⟩).str

end KcnTools.W3m
