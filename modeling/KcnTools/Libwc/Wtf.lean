import KcnTools.Libwc.Renumber

/-! The internal text of w3m (wtf.c): ASCII bytes, bytes above 0xA0 for the one
set that is in GR, and units whose lead byte between 0x80 and 0x9B says what
kind of set follows. -/

namespace KcnTools.Libwc

/-- The options (WcOption) that the code of this development reads. -/
structure WcOption where
  useCombining : Bool := true
  useLanguageTag : Bool := true
  ucsConv : Bool := true
  preConv : Bool := false
  useJisx0201 : Bool := false
  useJisc6226 : Bool := false
  useJisx0201k : Bool := false
  useJisx0212 : Bool := false
  useJisx0213 : Bool := false
  strictIso2022 : Bool := true
  gb18030AsUcs : Bool := false
  noReplace : Bool := false
  eastAsianWidth : Bool := false

/-- Conversions between sets, which go through the tables of `map/`. -/
structure Conversions where
  isCombining : Wchar → Bool
  johabToKsx1001 : Wchar → Wchar
  ksx1001ToJohab : Wchar → Wchar
  /-- `wc_any_to_any_ces` for the encoding of the display. -/
  anyToMajor : Wchar → Wchar
  /-- `wc_ces_has_ccs` for the encoding of the display. -/
  majorHas : Nat → Bool
  /-- searches in the range maps of the Basic Multilingual Plane -/
  ucsAmbwidthMap : Nat → Bool
  ucsWideMap : Nat → Bool
  ucsCombiningMap : Nat → Bool
  /-- `wc_any_to_ucs` for the sets that have a table; `none` is WC_C_UCS4_ERROR -/
  tableToUcs : Wchar → Option Nat

structure Wc where
  option : WcOption
  tables : Conversions
  /-- `wtf_gr_ccs` -/
  grCcs : Nat
  /-- the index of `wtf_major_ces` in WcCesInfo -/
  majorCes : Nat

def Wc.initial : Wc where
  option := {}
  tables := ⟨fun _ => false, id, id, id, fun _ => true, fun _ => false, fun _ => false, fun _ => false,
    fun _ => none⟩
  grCcs := 0
  majorCes := 0

def cesIso2022Kr : Nat := 21
def cesEucKr : Nat := 25
def cesJohab : Nat := 64

def wtfLenTable : List Nat :=
  [3, 4, 3, 4, 3, 3, 3, 4, 4, 4, 6, 6, 1, 1, 1, 1,
   3, 4, 3, 4, 3, 3, 3, 4, 4, 4, 6, 6, 1, 1, 1, 1]

def wtfLenMap (w : Wc) (lead : UInt8) : Nat :=
  if lead > 0xA0 then if isWide w.grCcs then 2 else 1
  else if lead ≥ 0x80 then wtfLenTable.getD (lead.toNat - 0x80) 1
  else 1

def ccsMap : List Nat :=
  [typeCs94, typeCs94w, typeCs96, typeCs96w, typeCs942, typeUnknown, typePcs, typePcsw,
   typeWcs16, typeWcs16w, typeWcs32, typeWcs32w, 0, 0, 0, 0,
   typeCs94 ||| ccsComb, typeCs94w ||| ccsComb, typeCs96 ||| ccsComb, typeCs96w ||| ccsComb,
   typeCs942 ||| ccsComb, 0, typePcs ||| ccsComb, typePcsw ||| ccsComb,
   typeWcs16 ||| ccsComb, typeWcs16w ||| ccsComb, typeWcs32 ||| ccsComb, typeWcs32w ||| ccsComb,
   0, 0, 0, 0, 0]

def ascii (code : Nat) : UInt8 := UInt8.ofNat (code &&& 0x7F)

def high (bits : Nat) : UInt8 := UInt8.ofNat (bits &&& 0x7F ||| 0x80)

def highPair (code : Nat) : List UInt8 := [high (code >>> 8), high code]

def wcs16ToWtf (index code : Nat) : List UInt8 :=
  [UInt8.ofNat ((code >>> 14) &&& 0x03 ||| 0x80 ||| index <<< 2), high (code >>> 7), high code]

def wcs32ToWtf (index code : Nat) : List UInt8 :=
  [UInt8.ofNat ((code >>> 28) &&& 0x0F ||| 0x80 ||| index <<< 4),
    high (code >>> 21), high (code >>> 14), high (code >>> 7), high code]

def pcswPlanes (cc : Wchar) : Wchar :=
  if cc.ccs = ccsSjisExt then sjisExtToCs94w cc
  else if cc.ccs = ccsGbk then gbkToCs128w cc
  else if cc.ccs = ccsGbkExt then gbkExtToCs128w cc
  else if cc.ccs = ccsBig5 then big5ToCs94w cc
  else if cc.ccs = ccsHkscs then hkscsToCs128w cc
  else if cc.ccs = ccsJohab then johabToCs128w cc
  else if cc.ccs = ccsUhc then uhcToCs128w cc
  else cc

def jisx0201kJisx0208Map : List Nat :=
  [0x2121, 0x2123, 0x2156, 0x2157, 0x2122, 0x2126, 0x2572, 0x2521,
   0x2523, 0x2525, 0x2527, 0x2529, 0x2563, 0x2565, 0x2567, 0x2543,
   0x213C, 0x2522, 0x2524, 0x2526, 0x2528, 0x252A, 0x252B, 0x252D,
   0x252F, 0x2531, 0x2533, 0x2535, 0x2537, 0x2539, 0x253B, 0x253D,
   0x253F, 0x2541, 0x2544, 0x2546, 0x2548, 0x254A, 0x254B, 0x254C,
   0x254D, 0x254E, 0x254F, 0x2552, 0x2555, 0x2558, 0x255B, 0x255E,
   0x255F, 0x2560, 0x2561, 0x2562, 0x2564, 0x2566, 0x2568, 0x2569,
   0x256A, 0x256B, 0x256C, 0x256D, 0x256F, 0x2573, 0x212B, 0x212C]

def jisx0201kToJisx0208 (cc : Wchar) : Wchar :=
  let code := if cc.code &&& 0x7F < 0x20 then 0 else jisx0201kJisx0208Map.getD ((cc.code &&& 0x7F) - 0x20) 0
  ⟨if code = 0 then ccsUnknownW else ccsJisX0208, code⟩

/-- What `pre_conv` makes of a character: ASCII, which is written at once, or a
character for the switch over the types. -/
def preConverted (w : Wc) (cc : Wchar) : UInt8 ⊕ Wchar :=
  if w.option.preConv && !isUnknown cc.ccs then
    if (cc.ccs = ccsJohab ∨ cc.ccs = ccsJohab_1 ∨ cc.ccs = ccsJohab_2 ∨ cc.ccs = ccsJohab_3) ∧
        (w.majorCes = cesEucKr ∨ w.majorCes = cesIso2022Kr) then
      let cc2 := w.tables.johabToKsx1001 cc
      .inr (if isUnknown cc2.ccs then cc else cc2)
    else if cc.ccs = ccsKsX1001 ∧ w.majorCes = cesJohab then
      let cc2 := w.tables.ksx1001ToJohab cc
      .inr (if isUnknown cc2.ccs then cc else cc2)
    else if w.option.ucsConv then
      if w.tables.majorHas (ccsSet cc.ccs) then .inr cc
      else
        let cc2 := w.tables.anyToMajor cc
        if cc2.ccs = ccsUsAscii then .inl (ascii cc2.code)
        else .inr (if isUnknown cc2.ccs ∨ cc2.ccs = ccsCp1258_2 ∨ cc2.ccs = ccsTcvn5712_3 then cc else cc2)
    else .inr cc
  else .inr cc

/-- The switch over the types of sets in `wtf_push`; `katakana` is its call of itself. -/
def writeUnit (w : Wc) (katakana : Wchar → List UInt8) (cc : Wchar) : List UInt8 :=
  let index := ccsIndex cc.ccs
  let single := [high cc.code]
  let type := ccsType cc.ccs
  if type = typeCs94 then
    if cc.ccs = w.grCcs then single
    else if cc.ccs = ccsJisX0201K ∧ ¬ w.option.useJisx0201k ∧ ¬ isUnknown (jisx0201kToJisx0208 cc).ccs then
      katakana (jisx0201kToJisx0208 cc)
    else 0x80 :: high index :: single
  else if type = typeCs94w then
    if cc.ccs = w.grCcs then highPair cc.code else 0x81 :: high index :: highPair cc.code
  else if type = typeCs96 then
    if w.option.useCombining && w.tables.isCombining cc then 0x92 :: high index :: single
    else if cc.ccs = w.grCcs ∧ cc.code &&& 0x7F > 0x20 then single
    else 0x82 :: high index :: single
  else if type = typeCs96w then
    if cc.ccs = w.grCcs ∧ (cc.code >>> 8) &&& 0x7F > 0x20 then highPair cc.code
    else 0x83 :: high index :: highPair cc.code
  else if type = typeCs942 then
    if cc.ccs = w.grCcs then single else 0x84 :: high index :: single
  else if type = typePcs then
    if w.option.useCombining && w.tables.isCombining cc then 0x96 :: high index :: single
    else if cc.ccs = w.grCcs ∧ cc.code &&& 0x7F > 0x20 then single
    else 0x86 :: high index :: single
  else if type = typePcsw then
    let cc := pcswPlanes cc
    if cc.ccs = w.grCcs ∧ (cc.code >>> 8) &&& 0x7F > 0x20 then highPair cc.code
    else 0x87 :: high (ccsIndex cc.ccs) :: highPair cc.code
  else if type = typeWcs16 then
    UInt8.ofNat ((if isWide cc.ccs then 0x89 else 0x88) ||| (if isComb cc.ccs then 0x10 else 0)) ::
      wcs16ToWtf index cc.code
  else if type = typeWcs32 then
    UInt8.ofNat ((if isWide cc.ccs then 0x8B else 0x8A) ||| (if isComb cc.ccs then 0x10 else 0)) ::
      wcs32ToWtf index cc.code
  else 0x85 :: high index :: single

def pushPlain (w : Wc) (cc : Wchar) : List UInt8 :=
  if cc.ccs = ccsUsAscii then [ascii cc.code]
  else
    match preConverted w cc with
    | .inl byte => [byte]
    | .inr cc => writeUnit w (fun _ => []) cc

def wtfPush (w : Wc) (cc : Wchar) : List UInt8 :=
  if cc.ccs = ccsUsAscii then [ascii cc.code]
  else
    match preConverted w cc with
    | .inl byte => [byte]
    | .inr cc => writeUnit w (pushPlain w) cc

def wtfPushUnknown (w : Wc) (bytes : List UInt8) : List UInt8 :=
  bytes.flatMap fun byte => if byte < 0x80 then [byte] else wtfPush w ⟨ccsUnknown, byte.toNat⟩

def pcswWhole (cc : Wchar) : Wchar :=
  if cc.ccs = ccsSjisExt_1 ∨ cc.ccs = ccsSjisExt_2 then cs94wToSjisExt cc
  else if cc.ccs = ccsGbk_1 ∨ cc.ccs = ccsGbk_2 then cs128wToGbk cc
  else if cc.ccs = ccsGbkExt_1 ∨ cc.ccs = ccsGbkExt_2 then cs128wToGbkExt cc
  else if cc.ccs = ccsBig5_1 ∨ cc.ccs = ccsBig5_2 then cs94wToBig5 cc
  else if cc.ccs = ccsHkscs_1 ∨ cc.ccs = ccsHkscs_2 then cs128wToHkscs cc
  else if cc.ccs = ccsJohab_1 ∨ cc.ccs = ccsJohab_2 ∨ cc.ccs = ccsJohab_3 then cs128wToJohab cc
  else if cc.ccs = ccsUhc_1 ∨ cc.ccs = ccsUhc_2 then cs128wToUhc cc
  else cc

def wtfToWcs16 (a b c : UInt8) : Nat :=
  ((a.toNat &&& 0x03) <<< 14) ||| ((b.toNat &&& 0x7F) <<< 7) ||| (c.toNat &&& 0x7F)

def wtfToWcs32 (a b c d e : UInt8) : Nat :=
  ((a.toNat &&& 0x0F) <<< 28) ||| ((b.toNat &&& 0x7F) <<< 21) ||| ((c.toNat &&& 0x7F) <<< 14) |||
    ((d.toNat &&& 0x7F) <<< 7) ||| (e.toNat &&& 0x7F)

/-- The character behind a tagged lead byte, or nothing where it reads beyond the text. -/
def parseTagged (attributes : Nat) (text : List UInt8) : Option (Wchar × List UInt8) :=
  let type := ccsType attributes
  if type = typeCs94 ∨ type = typeCs96 ∨ type = typeCs942 ∨ type = typePcs ∨ type = typeUnknown then
    match text with
    | i :: c :: rest => some (⟨attributes ||| (i.toNat &&& 0x7F), c.toNat⟩, rest)
    | _ => none
  else if type = typeCs94w ∨ type = typeCs96w ∨ type = typePcsw then
    match text with
    | i :: a :: b :: rest => some (⟨attributes ||| (i.toNat &&& 0x7F), pair a b⟩, rest)
    | _ => none
  else if type = typeWcs16 then
    match text with
    | a :: b :: c :: rest => some (⟨attributes ||| (a.toNat &&& 0x7C) >>> 2, wtfToWcs16 a b c⟩, rest)
    | _ => none
  else if type = typeWcs32 then
    match text with
    | a :: b :: c :: d :: e :: rest =>
        some (⟨attributes ||| (a.toNat &&& 0x70) >>> 4, wtfToWcs32 a b c d e⟩, rest)
    | _ => none
  else some (⟨ccsUsAscii, 0x20⟩, text)

def wtfParse1 (w : Wc) : List UInt8 → Option (Wchar × List UInt8)
  | [] => none
  | lead :: text =>
      let parsed :=
        if lead < 0x80 then some (⟨ccsUsAscii, lead.toNat⟩, text)
        else if lead > 0xA0 then
          if isWide w.grCcs then
            match text with
            | next :: rest => some (⟨w.grCcs, pair lead next⟩, rest)
            | [] => none
          else some (⟨w.grCcs, lead.toNat⟩, text)
        else parseTagged (ccsMap.getD (lead.toNat - 0x80) 0) text
      parsed.map fun (cc, rest) => (pcswWhole cc, rest)

end KcnTools.Libwc
