import KcnTools.Protocol.UriParts

/-!
`parse_uri` does not look at the case of letters: the bytes that it compares with are no letters,
and `get_protocol` compares names in lower case.
-/

namespace KcnTools.Protocols

def isLetter (c : UInt8) : Bool := (65 ≤ c && c ≤ 90) || (97 ≤ c && c ≤ 122)

theorem cTolower_eq_iff {c d : UInt8} (other : isLetter d = false) : cTolower c = d ↔ c = d := by
  simp only [isLetter, Bool.or_eq_false_iff, Bool.and_eq_false_iff, decide_eq_false_iff_not] at other
  rw [cTolower]
  split
  next upper =>
    simp only [Bool.and_eq_true, decide_eq_true_eq] at upper
    simp only [UInt8.le_iff_toNat_le, ← UInt8.toNat_inj, UInt8.toNat_add] at *
    simp at *
    omega
  next => rfl

theorem cTolower_cTolower (c : UInt8) : cTolower (cTolower c) = cTolower c := by
  simp only [cTolower, Bool.and_eq_true, decide_eq_true_eq]
  split
  next upper =>
    rw [if_neg]
    simp [UInt8.le_iff_toNat_le, UInt8.toNat_add] at *
    omega
  next => rfl

theorem isdigit_lower (c : UInt8) : isdigit (cTolower c) = isdigit c := by
  rw [cTolower]
  split
  next upper =>
    simp only [Bool.and_eq_true, decide_eq_true_eq] at upper
    simp only [isdigit, UInt8.le_iff_toNat_le] at *
    rw [Bool.eq_iff_iff]
    simp [UInt8.toNat_add] at *
    omega
  next => rfl

theorem isalnum_lower (c : UInt8) : isalnum (cTolower c) = isalnum c := by
  rw [isalnum, isalnum, isdigit_lower, cTolower]
  split
  next upper =>
    simp only [Bool.and_eq_true, decide_eq_true_eq] at upper
    rw [Bool.eq_iff_iff]
    simp [UInt8.le_iff_toNat_le, UInt8.toNat_add] at *
    omega
  next => rfl

/-! What the scanning functions see in the string in lower case. -/

def foldCase (s : List UInt8) : List UInt8 := s.map cTolower

theorem foldCase_foldCase (s : List UInt8) : foldCase (foldCase s) = foldCase s := by
  rw [foldCase, foldCase, List.map_map]
  apply List.map_congr_left
  intro c _
  exact cTolower_cTolower c

theorem length_foldCase (s : List UInt8) : (foldCase s).length = s.length := List.length_map _

theorem foldCase_drop (s : List UInt8) (n : Nat) : (foldCase s).drop n = foldCase (s.drop n) :=
  List.map_drop.symm

theorem foldCase_take (s : List UInt8) (n : Nat) : (foldCase s).take n = foldCase (s.take n) :=
  List.map_take.symm

theorem isEmpty_foldCase (s : List UInt8) : (foldCase s).isEmpty = s.isEmpty := by
  cases s <;> rfl

theorem byteAt_foldCase (s : List UInt8) (i : Nat) : byteAt (foldCase s) i = cTolower (byteAt s i) := by
  simp only [foldCase, byteAt, List.getD_eq_getElem?_getD, List.getElem?_map]
  cases s[i]? <;> rfl

theorem byteAt_foldCase_eq (s : List UInt8) (i : Nat) {d : UInt8} (other : isLetter d = false) :
    byteAt (foldCase s) i = d ↔ byteAt s i = d := by
  rw [byteAt_foldCase, cTolower_eq_iff other]

theorem isdigit_foldCase (s : List UInt8) (i : Nat) :
    isdigit (byteAt (foldCase s) i) = isdigit (byteAt s i) := by
  rw [byteAt_foldCase, isdigit_lower]

theorem digit_foldCase (s : List UInt8) (i : Nat) (digit : isdigit (byteAt s i) = true) :
    byteAt (foldCase s) i = byteAt s i := by
  rw [byteAt_foldCase, cTolower, if_neg]
  simp only [isdigit, Bool.and_eq_true, decide_eq_true_eq, UInt8.le_iff_toNat_le] at *
  simp at *
  omega

def noLetters (set : List UInt8) : Bool := set.all fun d => !isLetter d

theorem contains_lower {set : List UInt8} (others : noLetters set = true) (c : UInt8) :
    set.contains (cTolower c) = set.contains c := by
  induction set with
  | nil => rfl
  | cons d set ih =>
      rw [noLetters, List.all_cons, Bool.and_eq_true, Bool.not_eq_true'] at others
      rw [List.contains_cons, List.contains_cons, ih others.2]
      congr 1
      rw [Bool.eq_iff_iff, beq_iff_eq, beq_iff_eq, cTolower_eq_iff others.1]

theorem takeWhile_foldCase {p : UInt8 → Bool} (blind : ∀ c, p (cTolower c) = p c) (s : List UInt8) :
    ((foldCase s).takeWhile p).length = (s.takeWhile p).length := by
  rw [foldCase, List.takeWhile_map, List.length_map]
  congr 2
  funext c
  exact blind c

theorem strcspn_foldCase (s : List UInt8) {reject : List UInt8} (others : noLetters reject = true) :
    strcspn (foldCase s) reject = strcspn s reject :=
  takeWhile_foldCase (fun c => by rw [contains_lower others]) s

theorem strchr_foldCase (s : List UInt8) {c : UInt8} (other : isLetter c = false) :
    strchr (foldCase s) c = strchr s c := by
  rw [strchr, strchr, foldCase, List.findIdx?_map]
  congr 1
  funext d
  rw [Function.comp_apply, Bool.eq_iff_iff, beq_iff_eq, beq_iff_eq, cTolower_eq_iff other]

theorem getProtocolLength_foldCase (url : List UInt8) :
    getProtocolLength (foldCase url) = getProtocolLength url := by
  have scheme := takeWhile_foldCase (p := fun c => isalnum c || [43, 45, 46].contains c) (fun c => by
    rw [isalnum_lower, contains_lower rfl]) url
  have colon : ∀ stop, byteAt (foldCase url) stop = 58 ↔ byteAt url stop = 58 := fun stop =>
    byteAt_foldCase_eq url stop rfl
  simp only [getProtocolLength, scheme, isdigit_foldCase, colon]

/-! The parts of `parse_uri`. -/

def Uri.foldCase (uri : Uri) : Uri := { uri with string := Protocols.foldCase uri.string }

theorem parseFragment_foldCase (uri : Uri) (position : Nat) :
    parseFragment uri.foldCase position = (parseFragment uri position).foldCase := by
  simp only [parseFragment, Uri.foldCase, byteAt_foldCase_eq _ _ (show isLetter 35 = false from rfl),
    byteAt_foldCase_eq _ _ (show isLetter postChar = false from rfl), foldCase_drop,
    strcspn_foldCase _ (show noLetters [postChar] = true from rfl)]
  split <;> (dsimp only; split <;> rfl)

theorem findBrackets_foldCase (s : List UInt8) (prefixEnd : Nat) :
    findBrackets (foldCase s) prefixEnd = findBrackets s prefixEnd := by
  simp only [findBrackets, foldCase_drop, strchr_foldCase _ (show isLetter 91 = false from rfl),
    strchr_foldCase _ (show isLetter 93 = false from rfl),
    strcspn_foldCase _ (show noLetters [47] = true from rfl)]

theorem lastAt_foldCase (s : List UInt8) (fuel hostEnd : Nat) :
    lastAt (foldCase s) fuel hostEnd = lastAt s fuel hostEnd := by
  induction fuel generalizing hostEnd with
  | zero => rfl
  | succ fuel ih =>
      simp only [lastAt, foldCase_drop, ih,
        strcspn_foldCase _ (show noLetters [64] = true from rfl),
        strcspn_foldCase _ (show noLetters [47, 63] = true from rfl)]

theorem parseAuth_foldCase (uri : Uri) (prefixEnd : Nat) :
    parseAuth uri.foldCase prefixEnd =
      ((parseAuth uri prefixEnd).1.foldCase, (parseAuth uri prefixEnd).2) := by
  simp only [parseAuth, Uri.foldCase, foldCase_drop, lastAt_foldCase, length_foldCase, ne_eq,
    byteAt_foldCase_eq _ _ (show isLetter 0 = false from rfl), strchr_foldCase _ (show isLetter 58 = false from rfl),
    strcspn_foldCase _ (show noLetters [64] = true from rfl),
    strcspn_foldCase _ (show noLetters [47] = true from rfl)]
  split
  · split
    · split <;> rfl
    · rfl
  · rfl

theorem foldCase_of_digits {digits : List UInt8} (all : digits.all isdigit = true) :
    foldCase digits = digits := by
  rw [foldCase]
  conv_rhs => rw [← List.map_id digits]
  apply List.map_congr_left
  intro c member
  have digit := List.all_eq_true.mp all c member
  rw [cTolower, if_neg, id_eq]
  simp only [isdigit, Bool.and_eq_true, decide_eq_true_eq, UInt8.le_iff_toNat_le] at *
  simp at *
  omega

theorem all_isdigit_foldCase (digits : List UInt8) :
    (foldCase digits).all isdigit = digits.all isdigit := by
  rw [foldCase, List.all_map]
  congr 1
  funext c
  exact isdigit_lower c

theorem parsePort_foldCase (uri : Uri) (hostEnd : Nat) :
    parsePort uri.foldCase hostEnd =
      (parsePort uri hostEnd).map fun result => (result.1.foldCase, result.2) := by
  simp only [parsePort, Uri.foldCase, ne_eq, byteAt_foldCase_eq _ _ (show isLetter 58 = false from rfl),
    foldCase_drop, foldCase_take, all_isdigit_foldCase,
    strcspn_foldCase _ (show noLetters [47] = true from rfl)]
  split
  · rfl
  · split
    · rfl
    · split
      · rfl
      · by_cases all : ((uri.string.drop (hostEnd + 1)).take
            (strcspn (uri.string.drop (hostEnd + 1)) [47])).all isdigit = true
        · rw [foldCase_of_digits all]
          split <;> rfl
        · rw [if_neg (fun both => all both.1), if_neg (fun both => all both.1)]
          rfl

theorem hostPart_foldCase (s : List UInt8) (uri : Uri) (prefixEnd : Nat) (brackets : Option (Nat × Nat)) :
    hostPart (foldCase s) uri.foldCase prefixEnd brackets =
      (hostPart s uri prefixEnd brackets).map fun result => (result.1.foldCase, result.2) := by
  cases brackets with
  | some brackets =>
      simp only [hostPart, foldCase_drop,
        strcspn_foldCase _ (show noLetters [58, 47, 63] = true from rfl)]
      split <;> rfl
  | none =>
      simp only [hostPart, foldCase_drop, byteAt_foldCase_eq _ _ (show isLetter 46 = false from rfl),
        strcspn_foldCase _ (show noLetters [58, 47, 63] = true from rfl)]
      split <;> rfl

theorem dataStart_foldCase (s : List UInt8) (uri : Uri) (hostEnd : Nat) :
    dataStart (foldCase s) uri.foldCase hostEnd = dataStart s uri hostEnd := by
  simp only [dataStart, byteAt_foldCase_eq _ _ (show isLetter 47 = false from rfl)]
  rfl

theorem dataPart_foldCase (s : List UInt8) (uri : Uri) (start : Nat) :
    dataPart (foldCase s) uri.foldCase start = (dataPart s uri start).foldCase := by
  simp only [dataPart, ← parseFragment_foldCase, foldCase_drop,
    strcspn_foldCase _ (show noLetters [35, postChar] = true from rfl)]
  rfl

theorem parseHost_foldCase (uri : Uri) (prefixEnd : Nat) :
    parseHost uri.foldCase prefixEnd = (parseHost uri prefixEnd).map Uri.foldCase := by
  have string : uri.foldCase.string = foldCase uri.string := rfl
  have marked : ∀ brackets, uri.foldCase.marked brackets = (uri.marked brackets).foldCase := fun _ => rfl
  simp only [parseHost_eq, string, findBrackets_foldCase, marked, parseAuth_foldCase, hostPart_foldCase]
  cases hostPart uri.string (parseAuth (uri.marked (findBrackets uri.string prefixEnd).isSome) prefixEnd).1
      (parseAuth (uri.marked (findBrackets uri.string prefixEnd).isSome) prefixEnd).2
      (findBrackets uri.string prefixEnd) with
  | error _ => rfl
  | ok host =>
      change (parsePort host.1.foldCase host.2).bind _ = ((parsePort host.1 host.2).bind _).map _
      rw [parsePort_foldCase]
      cases parsePort host.1 host.2 with
      | error _ => rfl
      | ok port =>
          change (dataStart (foldCase uri.string) port.1.foldCase port.2).bind _ =
            ((dataStart uri.string port.1 port.2).bind _).map _
          rw [dataStart_foldCase]
          cases dataStart uri.string port.1 port.2 with
          | error _ => rfl
          | ok start =>
              change Except.ok (dataPart (foldCase uri.string) port.1.foldCase start) =
                Except.ok (dataPart uri.string port.1 start).foldCase
              rw [dataPart_foldCase]

theorem skipSlashes_foldCase (s : List UInt8) (backend : ProtocolBackend) (prefixEnd : Nat) :
    skipSlashes (foldCase s) backend prefixEnd = skipSlashes s backend prefixEnd := by
  simp only [skipSlashes, byteAt_foldCase_eq _ _ (show isLetter 47 = false from rfl)]

theorem parseBody_foldCase (uri : Uri) (prefixEnd : Nat) :
    parseBody uri.foldCase prefixEnd = (parseBody uri prefixEnd).map Uri.foldCase := by
  have string : uri.foldCase.string = foldCase uri.string := rfl
  have scheme : uri.foldCase.protocol = uri.protocol := rfl
  rw [parseBody, parseBody, string, scheme, foldCase_drop]
  split
  · rw [length_foldCase]
    rfl
  · split
    · rw [strcspn_foldCase _ (show noLetters [postChar, 35] = true from rfl)]
      exact congrArg Except.ok (parseFragment_foldCase
        { uri with data := prefixEnd, datalen := strcspn (uri.string.drop prefixEnd) [postChar, 35] % 2 ^ 16 } _)
    · exact parseHost_foldCase uri prefixEnd

theorem familyDigit_foldCase (s : List UInt8) (protocollen : Nat) :
    familyDigit (foldCase s) protocollen = familyDigit s protocollen := by
  rw [familyDigit, familyDigit, isdigit_foldCase]
  by_cases digit : isdigit (byteAt s protocollen) = true
  · rw [if_pos digit, if_pos digit, digit_foldCase s protocollen digit]
  · rw [if_neg digit, if_neg digit]

/-- The string in lower case is parsed the same way when its scheme names the same protocol. -/
theorem parseUri_foldCase {getUserProgram : List UInt8 → Bool} {s : List UInt8}
    (same : schemeProtocol getUserProgram (foldCase s) = schemeProtocol getUserProgram s) :
    parseUri getUserProgram (foldCase s) = (parseUri getUserProgram s).map Uri.foldCase := by
  have scheme : protocolLength (foldCase s) = protocolLength s := by
    rw [protocolLength, protocolLength, getProtocolLength_foldCase]
  have start : schemeUri getUserProgram (foldCase s) = (schemeUri getUserProgram s).foldCase := by
    rw [schemeUri, same, scheme, familyDigit_foldCase]
    rfl
  rw [parseUri_eq, parseUri_eq]
  simp only [isEmpty_foldCase, scheme, familyDigit_foldCase, skipSlashes_foldCase, same, start, ne_eq,
    byteAt_foldCase_eq _ _ (show isLetter 58 = false from rfl)]
  split
  · rfl
  · split
    · rfl
    · split
      · rfl
      · cases skipSlashes s (protocolBackend (schemeProtocol getUserProgram s))
          ((familyDigit s (protocolLength s)).2 + 1) with
        | error _ => rfl
        | ok prefixEnd => exact parseBody_foldCase _ _

theorem cStrncasecmp_foldCase (s1 s2 : List UInt8) (n : Nat) :
    cStrncasecmp s1 (foldCase s2) n = cStrncasecmp s1 s2 n := by
  induction n generalizing s1 s2 with
  | zero => rfl
  | succ n ih =>
      have tail : (foldCase s2).tail = foldCase s2.tail := List.map_tail.symm
      simp only [cStrncasecmp, byteAt_foldCase, cTolower_cTolower, tail, ih]

theorem searchProtocol_foldCase (name : List UInt8) (fuel : Nat) (start stop middle : Int) :
    searchProtocol (foldCase name) fuel start stop middle = searchProtocol name fuel start stop middle := by
  induction fuel generalizing start stop middle with
  | zero => rfl
  | succ fuel ih => simp only [searchProtocol, cStrncasecmp_foldCase, length_foldCase, ih]

/-- `get_user_program` looks for the name in lower case. -/
theorem parseUri_lowercase {getUserProgram : List UInt8 → Bool}
    (user : ∀ name, getUserProgram (foldCase name) = getUserProgram name) (s : List UInt8) :
    parseUri getUserProgram (foldCase s) = (parseUri getUserProgram s).map Uri.foldCase := by
  apply parseUri_foldCase
  have length : protocolLength (foldCase s) = protocolLength s := by
    rw [protocolLength, protocolLength, getProtocolLength_foldCase]
  rw [schemeProtocol, schemeProtocol, length, foldCase_take, getProtocol, getProtocol, searchProtocol_foldCase, user]

theorem parseUri_lowercase_mailto :
    parseUri (fun name => foldCase name == [109, 97, 105, 108, 116, 111])
        (foldCase [77, 65, 73, 76, 84, 79, 58, 65]) =
      (parseUri (fun name => foldCase name == [109, 97, 105, 108, 116, 111])
        [77, 65, 73, 76, 84, 79, 58, 65]).map Uri.foldCase :=
  parseUri_lowercase (fun name => by rw [foldCase_foldCase]) _

end KcnTools.Protocols
