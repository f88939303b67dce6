import KcnTools.Cookies.CookieFile
import KcnTools.Cookies.CookieServers
import KcnTools.Protocol.PathNormal
import Mathlib.Data.List.TakeWhile

/-!
The cookies that come back from the file. Lines that do not fit into the buffer come in pieces,
and the last piece of such a line may be a line of a cookie with a shorter name.
-/

namespace KcnTools.Cookies

open Protocols

variable {jar : CookieJar} {now : Int}

section Pieces

theorem fgetsLength_line {body rest : List UInt8} (plain : (10 : UInt8) ∉ body) :
    (body.length + 1 < bufferSize ∧ fgetsLength (body ++ 10 :: rest) = body.length + 1) ∨
      (bufferSize ≤ body.length + 1 ∧ fgetsLength (body ++ 10 :: rest) = bufferSize - 1) := by
  have missing : ∀ {part : List UInt8}, (10 : UInt8) ∉ part → part.findIdx? (· == 10) = none := by
    intro part absent
    rw [List.findIdx?_eq_none_iff]
    intro c member
    exact beq_eq_false_iff_ne.mpr fun same => absent (same ▸ member)
  by_cases fits : body.length + 1 < bufferSize
  · refine .inl ⟨fits, ?_⟩
    have taken : (body ++ 10 :: rest).take (bufferSize - 1) = body ++ 10 :: rest.take
        (bufferSize - 1 - body.length - 1) := by
      rw [List.take_append, List.take_of_length_le (by omega)]
      congr 1
      have more : bufferSize - 1 - body.length = (bufferSize - 1 - body.length - 1) + 1 := by omega
      rw [more, List.take_succ_cons]
      rfl
    rw [fgetsLength, taken, List.findIdx?_append, missing plain]
    simp [List.findIdx?_cons]
  · refine .inr ⟨by omega, ?_⟩
    have taken : (body ++ 10 :: rest).take (bufferSize - 1) = body.take (bufferSize - 1) :=
      List.take_append_of_le_length (by omega)
    rw [fgetsLength, taken, missing fun member => plain (List.mem_of_mem_take member)]
    simp only [List.length_append, List.length_cons]
    omega

def cookieBody (c : Cookie) : List UInt8 :=
  c.name ++ 9 :: c.value ++ 9 :: c.server ++ 9 :: c.path ++ 9 :: c.domain ++ 9 :: formatLong c.expires ++
    9 :: (if c.secure then [49] else [48])

theorem cookieLine_eq (c : Cookie) : cookieLine c = cookieBody c ++ [10] := rfl

theorem mem_cookieBody {c : Cookie} (plain : PlainCookie c) {b : UInt8} (member : b ∈ cookieBody c) :
    b ≠ 0 ∧ b ≠ 10 := by
  have separated : ∀ {s : List UInt8}, Plain s → b ∈ s → b ≠ 0 ∧ b ≠ 10 := fun ok inside =>
    ⟨(ok b inside).1, (ok b inside).2.2⟩
  have tab : b = 9 → b ≠ 0 ∧ b ≠ 10 := by
    rintro rfl
    decide
  rw [cookieBody] at member
  simp only [List.append_assoc, List.cons_append, List.mem_append, List.mem_cons] at member
  rcases member with inside | here | inside | here | inside | here | inside | here | inside | here | inside | here |
    inside
  · exact separated plain.name inside
  · exact tab here
  · exact separated plain.value inside
  · exact tab here
  · exact separated plain.server inside
  · exact tab here
  · exact separated plain.path inside
  · exact tab here
  · exact separated plain.domain inside
  · exact tab here
  · exact separated (formatLong_plain _) inside
  · exact tab here
  · exact separated (secure_plain _) inside

theorem count_tabs {c : Cookie} (plain : PlainCookie c) : (cookieBody c).count 9 = 6 := by
  rw [cookieBody]
  simp only [List.append_assoc, List.cons_append, List.count_append, List.count_cons_self,
    List.count_eq_zero.mpr plain.name.no_tab, List.count_eq_zero.mpr plain.value.no_tab,
    List.count_eq_zero.mpr plain.server.no_tab, List.count_eq_zero.mpr plain.path.no_tab,
    List.count_eq_zero.mpr plain.domain.no_tab, List.count_eq_zero.mpr (formatLong_plain _).no_tab,
    List.count_eq_zero.mpr (secure_plain _).no_tab]

def Piece (c : Cookie) (chunk : List UInt8) : Prop :=
  (∃ front, front ++ chunk = cookieLine c ∧ chunk.length < bufferSize) ∨
    (10 : UInt8) ∉ chunk ∧ chunk.count 9 ≤ 6

theorem bufferedLines_nil (fuel : Nat) : bufferedLines fuel [] = [] := by
  cases fuel with
  | zero => rfl
  | succ fuel => rw [bufferedLines, if_pos rfl]

theorem bufferedLines_pieces {cookies : List Cookie} (plain : ∀ c ∈ cookies, PlainCookie c) {first : Cookie}
    (firstPlain : PlainCookie first) {fuel : Nat} {tail : List UInt8} (nonempty : tail ≠ [])
    (suffix : tail <:+ cookieLine first) {chunk : List UInt8}
    (member : chunk ∈ bufferedLines fuel (tail ++ cookies.flatMap cookieLine)) :
    ∃ c ∈ first :: cookies, Piece c chunk := by
  induction fuel generalizing cookies first tail with
  | zero => cases member
  | succ fuel ih =>
      obtain ⟨front, split⟩ := suffix
      obtain ⟨body, rfl⟩ : ∃ body, tail = body ++ [10] := by
        have last := congrArg List.getLast? split
        rw [cookieLine_eq, List.getLast?_append, List.getLast?_concat] at last
        obtain ⟨body, last', same⟩ := List.eq_nil_or_concat tail |>.resolve_left nonempty
        rw [same] at last ⊢
        simp at last
        exact ⟨body, by rw [last, List.concat_eq_append]⟩
      have bodySplit : front ++ body = cookieBody first := by
        rw [cookieLine_eq, ← List.append_assoc] at split
        exact List.append_inj_left' split rfl
      have inBody : ∀ b ∈ body, b ∈ cookieBody first := by
        intro b inside
        rw [← bodySplit]
        exact List.mem_append_right _ inside
      have noNewline : (10 : UInt8) ∉ body := fun inside => (mem_cookieBody firstPlain (inBody _ inside)).2 rfl
      have noNul : (0 : UInt8) ∉ body := fun inside => (mem_cookieBody firstPlain (inBody _ inside)).1 rfl
      rw [List.append_assoc, List.singleton_append, bufferedLines, if_neg (by simp), List.mem_cons] at member
      rcases @fgetsLength_line body (cookies.flatMap cookieLine) noNewline with ⟨fits, length⟩ | ⟨long, length⟩
      · -- the rest of the line fits
        have taken : (body ++ 10 :: cookies.flatMap cookieLine).take (body.length + 1) = body ++ [10] := by
          rw [List.take_append, List.take_of_length_le (by omega)]
          simp
        have dropped : (body ++ 10 :: cookies.flatMap cookieLine).drop (body.length + 1) =
            cookies.flatMap cookieLine := by
          rw [List.drop_append, List.drop_eq_nil_of_le (by omega)]
          simp
        rw [length, taken, dropped] at member
        rcases member with rfl | later
        · have clean : (0 : UInt8) ∉ body ++ [10] := by simp [noNul]
          rw [cString_of_not_mem clean]
          refine ⟨first, List.mem_cons_self, .inl ⟨front, split, ?_⟩⟩
          simpa using fits
        · cases cookies with
          | nil =>
              rw [List.flatMap_nil, bufferedLines_nil] at later
              cases later
          | cons next cookies =>
              rw [List.flatMap_cons] at later
              rw [List.forall_mem_cons] at plain
              obtain ⟨c, inside, piece⟩ := ih plain.2 plain.1 (by simp [cookieLine]) (List.suffix_refl _) later
              exact ⟨c, List.mem_cons_of_mem _ inside, piece⟩
      · -- the buffer is full before the newline
        have room : bufferSize - 1 ≤ body.length := by omega
        rw [length, List.take_append_of_le_length room, List.drop_append_of_le_length room] at member
        rcases member with rfl | later
        · have clean : (0 : UInt8) ∉ body.take (bufferSize - 1) := fun inside => noNul (List.mem_of_mem_take inside)
          rw [cString_of_not_mem clean]
          refine ⟨first, List.mem_cons_self, .inr ⟨fun inside => noNewline (List.mem_of_mem_take inside), ?_⟩⟩
          rw [← count_tabs firstPlain, ← bodySplit, List.count_append]
          have fewer := (List.take_sublist (bufferSize - 1) body).count_le 9
          omega
        · have rearranged : body.drop (bufferSize - 1) ++ 10 :: cookies.flatMap cookieLine =
              (body.drop (bufferSize - 1) ++ [10]) ++ cookies.flatMap cookieLine := by simp
          rw [rearranged] at later
          refine ih plain firstPlain (by simp) ?_ later
          refine List.IsSuffix.trans ?_ ⟨front, split⟩
          exact ⟨body.take (bufferSize - 1), by rw [← List.append_assoc, List.take_append_drop]⟩

theorem bufferedLines_fit {cookies : List Cookie} (storable : ∀ c ∈ cookies, Storable c) {fuel : Nat}
    (enough : (cookies.flatMap cookieLine).length < fuel) :
    bufferedLines fuel (cookies.flatMap cookieLine) = cookies.map cookieLine := by
  induction cookies generalizing fuel with
  | nil => exact bufferedLines_nil fuel
  | cons c cookies ih =>
      rw [List.forall_mem_cons] at storable
      obtain ⟨⟨plain, short⟩, rest⟩ := storable
      cases fuel with
      | zero => omega
      | succ fuel =>
          rw [cookieLine_eq, List.length_append, List.length_singleton] at short
          have noNewline : (10 : UInt8) ∉ cookieBody c := fun inside => (mem_cookieBody plain inside).2 rfl
          have clean : (0 : UInt8) ∉ cookieLine c := by
            rw [cookieLine_eq, List.mem_append]
            rintro (inside | last)
            · exact (mem_cookieBody plain inside).1 rfl
            · simp at last
          have shape : (c :: cookies).flatMap cookieLine = cookieBody c ++ 10 :: cookies.flatMap cookieLine := by
            rw [List.flatMap_cons, cookieLine_eq]
            simp
          have length : fgetsLength ((c :: cookies).flatMap cookieLine) = (cookieLine c).length := by
            rw [shape, cookieLine_eq, List.length_append]
            rcases @fgetsLength_line _ (cookies.flatMap cookieLine) noNewline with ⟨_, length⟩ | ⟨long, _⟩
            · exact length
            · omega
          have smaller : (cookies.flatMap cookieLine).length < fuel := by
            rw [shape, List.length_append, List.length_cons] at enough
            omega
          rw [bufferedLines, if_neg (by rw [shape]; simp), length, List.flatMap_cons, List.take_left, List.drop_left,
            cString_of_not_mem clean, ih rest smaller, List.map_cons]

end Pieces

section Members

theorem lineMembers_separators {count : Nat} {q : List UInt8} {members : List (List UInt8 × Nat)}
    (found : lineMembers (count + 1) q = some members) :
    count + 1 ≤ q.count 9 ∨ count ≤ q.count 9 ∧ (10 : UInt8) ∈ q := by
  induction count generalizing q members with
  | zero =>
      rw [lineMembers] at found
      cases tab : strchr q 9 with
      | some place =>
          have inside : (9 : UInt8) ∈ q := by
            by_contra absent
            rw [strchr_none absent] at tab
            cases tab
          exact .inl (List.count_pos_iff.mpr inside)
      | none =>
          refine .inr ⟨Nat.zero_le _, ?_⟩
          by_contra absent
          rw [tab, strchr_none absent] at found
          cases found
  | succ count ih =>
      rw [lineMembers] at found
      cases tab : strchr q 9 with
      | none =>
          rw [tab] at found
          cases found
      | some place =>
          rw [tab] at found
          obtain ⟨inner, later, _⟩ := Option.map_eq_some_iff.mp found
          obtain ⟨inRange, here, _⟩ := List.findIdx?_eq_some_iff_getElem.mp tab
          have split : q = q.take place ++ 9 :: q.drop (place + 1) := by
            conv => lhs; rw [← List.take_append_drop place q, List.drop_eq_getElem_cons inRange]
            rw [beq_iff_eq.mp here]
          have more : (q.drop (place + 1)).count 9 + 1 ≤ q.count 9 := by
            conv => rhs; rw [split, List.count_append, List.count_cons_self]
            omega
          rcases ih later with enough | ⟨enough, newline⟩
          · exact .inl (by omega)
          · exact .inr ⟨by omega, List.mem_of_mem_drop newline⟩

theorem piece_members {c : Cookie} (plain : PlainCookie c) {chunk : List UInt8} (piece : Piece c chunk)
    {members : List (List UInt8 × Nat)} (found : lineMembers 7 chunk = some members) :
    ∃ front name, front ++ name = c.name ∧ chunk = cookieLine { c with name := name } ∧
      chunk.length < bufferSize := by
  have separators := lineMembers_separators found
  rcases piece with ⟨front, split, short⟩ | ⟨noNewline, few⟩
  · have tabs : front.count 9 + chunk.count 9 = 6 := by
      rw [← List.count_append, split, cookieLine_eq, List.count_append, count_tabs plain]
      rfl
    have none : (9 : UInt8) ∉ front := by
      rw [← List.count_eq_zero]
      omega
    have shape : cookieLine c = c.name ++ 9 :: (c.value ++ 9 :: (c.server ++ 9 :: (c.path ++ 9 :: (c.domain ++ 9 ::
        (formatLong c.expires ++ 9 :: ((if c.secure then [49] else [48]) ++ [10])))))) := by
      rw [cookieLine]
      simp only [List.append_assoc, List.cons_append]
    rw [shape] at split
    rcases List.append_eq_append_iff.mp split with ⟨name, whole, rest⟩ | ⟨tabbed, whole, rest⟩
    · refine ⟨front, name, whole.symm, ?_, short⟩
      rw [rest, cookieLine]
      simp only [List.append_assoc, List.cons_append]
    · cases tabbed with
      | nil =>
          refine ⟨front, [], by simpa using whole, ?_, short⟩
          rw [List.nil_append] at rest
          rw [← rest, cookieLine]
          simp only [List.append_assoc, List.cons_append, List.nil_append]
      | cons tab tabbed =>
          rw [List.cons_append, List.cons.injEq] at rest
          rw [whole, ← rest.1] at none
          exact absurd (List.mem_append_right _ List.mem_cons_self) none
  · rcases separators with many | ⟨_, newline⟩
    · omega
    · exact absurd newline noNewline

def LineOk (q : List UInt8) : Prop := (0 : UInt8) ∉ q ∧ (10 : UInt8) ∉ q.dropLast

theorem lineMembers_plain {count : Nat} {q : List UInt8} (ok : LineOk q) {members : List (List UInt8 × Nat)}
    (found : lineMembers (count + 2) q = some members) :
    ∃ member rest after, members = member :: rest ∧ Plain (memberText member) ∧ LineOk after ∧
      lineMembers (count + 1) after = some rest := by
  rw [lineMembers] at found
  cases tab : strchr q 9 with
  | none =>
      rw [tab] at found
      cases found
  | some place =>
      rw [tab] at found
      obtain ⟨rest, later, rfl⟩ := Option.map_eq_some_iff.mp found
      obtain ⟨inRange, _, before⟩ := List.findIdx?_eq_some_iff_getElem.mp tab
      refine ⟨_, rest, _, rfl, ?_, ⟨?_, ?_⟩, later⟩
      · intro b member
        obtain ⟨index, bound, rfl⟩ := List.getElem_of_mem member
        rw [memberText, List.length_take] at bound
        simp only [memberText, List.getElem_take]
        have earlier : index < place := by omega
        refine ⟨?_, ?_, ?_⟩
        · intro same
          exact ok.1 (same ▸ List.getElem_mem _)
        · have noTab := before index earlier
          rwa [Bool.not_eq_true, beq_eq_false_iff_ne] at noTab
        · intro same
          apply ok.2
          rw [← same, ← List.getElem_dropLast (by rw [List.length_dropLast]; omega)]
          exact List.getElem_mem _
      · exact fun inside => ok.1 (List.mem_of_mem_drop inside)
      · intro inside
        have moved : (q.drop (place + 1)).dropLast = q.dropLast.drop (place + 1) := by
          rw [List.dropLast_eq_take, List.dropLast_eq_take, List.drop_take, List.length_drop]
          congr 1
          omega
        rw [moved] at inside
        exact ok.2 (List.mem_of_mem_drop inside)

theorem fgets_newline {file : List UInt8} : (10 : UInt8) ∉ (file.take (fgetsLength file)).dropLast := by
  intro inside
  rw [fgetsLength] at inside
  split at inside
  next index found =>
    obtain ⟨inRange, _, before⟩ := List.findIdx?_eq_some_iff_getElem.mp found
    rw [List.length_take] at inRange
    rw [List.dropLast_eq_take, List.take_take, List.length_take] at inside
    obtain ⟨place, bound, same⟩ := List.getElem_of_mem inside
    rw [List.length_take] at bound
    have other := before place (by omega)
    rw [List.getElem_take] at same other
    rw [same] at other
    exact other rfl
  next nothing =>
    rw [List.findIdx?_eq_none_iff] at nothing
    have there := (List.dropLast_subset _) inside
    rw [← List.take_take] at there
    have apart := nothing 10 (List.mem_of_mem_take there)
    cases apart

theorem bufferedLines_ok {fuel : Nat} {file line : List UInt8} (member : line ∈ bufferedLines fuel file) :
    LineOk line := by
  induction fuel generalizing file with
  | zero => cases member
  | succ fuel ih =>
      rw [bufferedLines] at member
      split at member
      · cases member
      rcases List.mem_cons.mp member with rfl | later
      · constructor
        · intro inside
          have kept := List.mem_takeWhile_imp inside
          simp at kept
        · intro inside
          have cut : cString (file.take (fgetsLength file)) <+: file.take (fgetsLength file) :=
            List.takeWhile_prefix _
          have shorter := cut.length_le
          rw [List.prefix_iff_eq_take.mp cut, List.dropLast_eq_take, List.take_take, List.length_take] at inside
          apply @fgets_newline file
          rw [List.dropLast_eq_take]
          exact (List.take_prefix_take_left (by omega)).subset inside
      · exact ih later

end Members

section Loading

theorem loadLine_cases (line : List UInt8) :
    loadLine now jar line = jar ∨
      ∃ host cookie, cookie.server = (getCookieServer jar.servers host).1 ∧
        loadLine now jar line =
          acceptCookie true { jar with servers := (getCookieServer jar.servers host).2 } cookie := by
  rw [loadLine]
  split
  · simp only
    split
    · exact .inl rfl
    · exact .inr ⟨_, _, rfl, rfl⟩
  · exact .inl rfl

theorem loadLine_counted (counted : CountedServers jar) (line : List UInt8) :
    CountedServers (loadLine now jar line) := by
  rcases loadLine_cases line with same | ⟨host, cookie, server, accepts⟩
  · rw [same]
    exact counted
  · obtain ⟨ok, _, users⟩ := counted.ok.get host
    rw [accepts]
    apply counted.accept ok
    rw [server]
    exact users

theorem loadLine_plain (counted : CountedServers jar) (plain : ∀ c ∈ jar.cookies, PlainCookie c)
    {line : List UInt8} (ok : LineOk line) : ∀ c ∈ (loadLine now jar line).cookies, PlainCookie c := by
  rw [loadLine]
  split
  next name value server path domain expires secure members =>
    obtain ⟨_, _, _, head, namePlain, ok, members⟩ := lineMembers_plain ok members
    obtain ⟨rfl, rfl⟩ := List.cons.inj head
    obtain ⟨_, _, _, head, valuePlain, ok, members⟩ := lineMembers_plain ok members
    obtain ⟨rfl, rfl⟩ := List.cons.inj head
    obtain ⟨_, _, _, head, serverPlain, ok, members⟩ := lineMembers_plain ok members
    obtain ⟨rfl, rfl⟩ := List.cons.inj head
    obtain ⟨_, _, _, head, pathPlain, ok, members⟩ := lineMembers_plain ok members
    obtain ⟨rfl, rfl⟩ := List.cons.inj head
    obtain ⟨_, _, _, head, domainPlain, ok, members⟩ := lineMembers_plain ok members
    obtain ⟨rfl, rfl⟩ := List.cons.inj head
    simp only
    split
    · exact plain
    · have hostPlain : Plain (getCookieServer jar.servers (memberText server)).1 := by
        rcases (counted.ok.get (memberText server)).2.1 with same | ⟨known, _⟩
        · rw [same]
          exact serverPlain
        · rw [counted.counted] at known
          obtain ⟨c, member, same⟩ := List.countP_pos_iff.mp known
          rw [← of_decide_eq_true same]
          exact (plain c member).server
      exact List.forall_mem_cons.mpr ⟨⟨namePlain, valuePlain, hostPlain, pathPlain, domainPlain⟩, plain⟩
  next => exact plain

/-- The loaded cookie is the saved one, or the line was too long and the name lost its start. -/
structure ComesFrom (c d : Cookie) : Prop where
  name : ∃ front, front ++ d.name = c.name ∧ (front = [] → (cookieLine c).length < bufferSize)
  value : d.value = c.value
  server : d.server.length = c.server.length
  path : d.path = c.path
  domain : d.domain = c.domain
  expires : d.expires = c.expires
  secure : d.secure = c.secure

theorem loadLine_piece (counted : CountedServers jar) {c : Cookie} (plain : PlainCookie c) (inTime : InTime c.expires)
    (dated : c.expires ≠ 0) (early : now < c.expires) {chunk : List UInt8} (piece : Piece c chunk) {d : Cookie}
    (member : d ∈ (loadLine now jar chunk).cookies) : d ∈ jar.cookies ∨ ComesFrom c d := by
  cases found : lineMembers 7 chunk with
  | none =>
      rw [loadLine, found] at member
      exact .inl member
  | some members =>
      obtain ⟨front, name, whole, rfl, short⟩ := piece_members plain piece found
      have renamed : PlainCookie { c with name := name } :=
        ⟨fun b inside => plain.name b (whole ▸ List.mem_append_right _ inside), plain.value, plain.server, plain.path,
          plain.domain⟩
      rw [loadLine_cookieLine renamed inTime dated early] at member
      rcases List.mem_cons.mp member with rfl | older
      · have sameLength : (getCookieServer jar.servers c.server).1.length = c.server.length := by
          rcases (counted.ok.get c.server).2.1 with same | ⟨_, same⟩
          · rw [same]
          · exact lower_length_eq same
        refine .inr ⟨⟨front, whole, ?_⟩, rfl, sameLength, rfl, rfl, rfl, rfl⟩
        rintro rfl
        rw [List.nil_append] at whole
        subst whole
        exact short
      · exact .inl older

theorem ComesFrom.line_length {c d : Cookie} (comes : ComesFrom c d) :
    ∃ front, front ++ d.name = c.name ∧ (front = [] → (cookieLine c).length < bufferSize) ∧
      (cookieLine c).length = front.length + (cookieLine d).length := by
  obtain ⟨front, whole, short⟩ := comes.name
  refine ⟨front, whole, short, ?_⟩
  have length := congrArg List.length whole
  rw [List.length_append] at length
  rw [cookieLine, cookieLine, comes.value, comes.path, comes.domain, comes.expires, comes.secure]
  simp only [List.length_append, List.length_cons, comes.server]
  omega

theorem lines_fit {saved : List Cookie} (comes : ∀ c ∈ saved, ∃ source ∈ saved, ComesFrom source c) :
    ∀ c ∈ saved, (cookieLine c).length < bufferSize := by
  by_contra long
  push Not at long
  obtain ⟨first, member, firstLong⟩ := long
  -- from each long line to a longer one
  have longer : ∀ count, ∃ c ∈ saved, bufferSize + count ≤ (cookieLine c).length := by
    intro count
    induction count with
    | zero => exact ⟨first, member, firstLong⟩
    | succ count ih =>
        obtain ⟨c, inside, bound⟩ := ih
        obtain ⟨source, there, relates⟩ := comes c inside
        obtain ⟨front, _, short, length⟩ := relates.line_length
        refine ⟨source, there, ?_⟩
        by_cases empty : front = []
        · have fits := short empty
          rw [empty, List.length_nil] at length
          omega
        · have positive := List.length_pos_iff.mpr empty
          omega
  obtain ⟨c, inside, bound⟩ := longer (saved.flatMap cookieLine).length
  have small : (cookieLine c).length ≤ (saved.flatMap cookieLine).length :=
    (List.sublist_flatten_of_mem (List.mem_map.mpr ⟨c, inside, rfl⟩)).length_le
  have room : 0 < bufferSize := by decide
  omega

theorem foldl_loadLine {saved : List Cookie} (storable : ∀ c ∈ saved, Storable c)
    (inTime : ∀ c ∈ saved, InTime c.expires) (dated : ∀ c ∈ saved, c.expires ≠ 0 ∧ now < c.expires)
    (counted : CountedServers jar) (oneText : ∀ c ∈ saved, ∀ d, d ∈ jar.cookies ∨ d ∈ saved →
      lower d.server = lower c.server → d.server = c.server) :
    ((saved.map cookieLine).foldl (loadLine now) jar).cookies = saved.reverse ++ jar.cookies := by
  induction saved generalizing jar with
  | nil => rfl
  | cons c rest ih =>
      rw [List.forall_mem_cons] at storable inTime dated
      have text : (getCookieServer jar.servers c.server).1 = c.server := by
        rcases (counted.ok.get c.server).2.1 with same | ⟨known, same⟩
        · exact same
        · rw [counted.counted] at known
          obtain ⟨d, member, host⟩ := List.countP_pos_iff.mp known
          have host := of_decide_eq_true host
          rw [← host] at same ⊢
          exact oneText c List.mem_cons_self d (.inl member) same
      have loaded := loadLine_cookieLine storable.1.1 inTime.1 dated.1.1 dated.1.2 jar
      rw [text] at loaded
      have next : CountedServers (loadLine now jar (cookieLine c)) := loadLine_counted counted _
      have cookies : (loadLine now jar (cookieLine c)).cookies = c :: jar.cookies := by
        rw [loaded]
        rfl
      rw [List.map_cons, List.foldl_cons, ih storable.2 inTime.2 dated.2 next, cookies, List.reverse_cons,
        List.append_assoc, List.singleton_append]
      intro other member d place
      apply oneText other (List.mem_cons_of_mem _ member)
      rw [cookies, List.mem_cons] at place
      rcases place with (rfl | older) | later
      · exact .inr List.mem_cons_self
      · exact .inl older
      · exact .inr (List.mem_cons_of_mem _ later)

end Loading

section Jars

structure SetCookieCall where
  maxAge : Int
  paranoidSecurity : Bool
  outside : CookiesOutside
  uri : Uri
  str : List UInt8

def setAll (calls : List SetCookieCall) : CookieJar :=
  calls.foldl (fun jar call =>
    setCookie ⟨.all, call.maxAge, call.paranoidSecurity⟩ call.outside jar call.uri call.str) emptyJar

theorem wrapTime_inTime (value : Int) : InTime (wrapTime value) := by
  rw [InTime, wrapTime]
  omega

theorem cookieExpires_inTime (options : CookiesOptions) (outside : CookiesOutside) (str : List UInt8) :
    InTime (cookieExpires options outside str) := by
  have zero : InTime 0 := by
    rw [InTime]
    omega
  rw [cookieExpires]
  split
  · exact zero
  · split
    · exact zero
    · simp only
      split
      · have first := wrapTime_inTime (outside.parseDate ‹_›)
        have second := wrapTime_inTime (outside.time + options.maxAge * 24 * 3600)
        rw [InTime] at first second ⊢
        omega
      · exact wrapTime_inTime _

structure SetJar (jar : CookieJar) : Prop where
  counted : CountedServers jar
  inTime : ∀ c ∈ jar.cookies, InTime c.expires

theorem SetJar.setCookie (set : SetJar jar) (maxAge : Int) (paranoidSecurity : Bool) (outside : CookiesOutside)
    (uri : Uri) (str : List UInt8) :
    SetJar (setCookie ⟨.all, maxAge, paranoidSecurity⟩ outside jar uri str) := by
  obtain ⟨ok, _, users⟩ := set.counted.ok.get (uriHost uri)
  rw [Cookies.setCookie, if_neg (by simp)]
  simp only
  split
  · exact set
  next cookie made =>
    obtain ⟨parts, _, rfl⟩ := Option.map_eq_some_iff.mp made
    rw [if_neg (by simp)]
    constructor
    · exact set.counted.accept ok false users
    · intro c member
      rcases List.mem_cons.mp member with rfl | older
      · exact cookieExpires_inTime _ _ _
      · exact set.inTime c (List.mem_of_mem_filter older)

theorem setAll_set (calls : List SetCookieCall) : SetJar (setAll calls) := by
  apply List.foldlRecOn calls
  · exact ⟨countedServers_empty, fun c member => absurd member List.not_mem_nil⟩
  · intro jar set call _
    exact set.setCookie _ _ _ _ _

theorem SetJar.oneText (set : SetJar jar) {c d : Cookie} (first : c ∈ jar.cookies) (second : d ∈ jar.cookies)
    (same : lower d.server = lower c.server) : d.server = c.server :=
  set.counted.ok.unique (set.counted.users_pos second) (set.counted.users_pos first) same

/-- The cookies that are saved come back, and no others, exactly when their members have no
separators in them and their lines fit into the buffer. -/
theorem cookieFile_roundTrip_iff (calls earlier : List SetCookieCall) {savedAt loadedAt : Int}
    (early : ∀ c ∈ (setAll calls).cookies, c.expires ≠ 0 → savedAt < c.expires ∧ loadedAt < c.expires) :
    (loadCookies (setAll earlier) (some (saveCookies (setAll calls) savedAt)) loadedAt).cookies.Perm
        ((setAll calls).cookies.filter fun c => c.expires ≠ 0) ↔
      ∀ c ∈ (setAll calls).cookies, c.expires ≠ 0 → Storable c := by
  have set := setAll_set calls
  have kept : saveCookies (setAll calls) savedAt =
      ((setAll calls).cookies.filter fun c => c.expires ≠ 0).flatMap cookieLine := by
    rw [saveCookies]
    congr 1
    apply List.filter_congr
    intro c member
    by_cases zero : c.expires = 0
    · simp [zero]
    · have later := (early c member zero).1
      have fresh : ¬ c.expires ≤ savedAt := by omega
      simp [zero, fresh]
  have start : CountedServers (clearCookies (setAll earlier)) ∧ (clearCookies (setAll earlier)).cookies = [] := by
    rw [(setAll_set earlier).counted.clear]
    exact ⟨countedServers_empty, rfl⟩
  rw [kept, loadCookies]
  generalize savedEq : ((setAll calls).cookies.filter fun c => c.expires ≠ 0) = saved
  have ofSaved : ∀ c, c ∈ saved ↔ c ∈ (setAll calls).cookies ∧ c.expires ≠ 0 := by
    intro c
    rw [← savedEq, List.mem_filter, decide_eq_true_eq]
  have inTime : ∀ c ∈ saved, InTime c.expires := fun c member => set.inTime c ((ofSaved c).mp member).1
  have dated : ∀ c ∈ saved, c.expires ≠ 0 ∧ loadedAt < c.expires := fun c member =>
    ⟨((ofSaved c).mp member).2, (early c ((ofSaved c).mp member).1 ((ofSaved c).mp member).2).2⟩
  constructor
  · intro back c inJar timed
    have pieces : ∀ line ∈ bufferedLines ((saved.flatMap cookieLine).length + 1) (saved.flatMap cookieLine),
        (∀ c ∈ saved, PlainCookie c) → ∃ source ∈ saved, Piece source line := by
      intro line member plain
      cases saved with
      | nil =>
          rw [List.flatMap_nil, bufferedLines_nil] at member
          cases member
      | cons first rest =>
          rw [List.flatMap_cons] at member
          rw [List.forall_mem_cons] at plain
          exact bufferedLines_pieces plain.2 plain.1 (by simp [cookieLine]) (List.suffix_refl _) member
    have ok : ∀ line ∈ bufferedLines ((saved.flatMap cookieLine).length + 1) (saved.flatMap cookieLine), LineOk line :=
      fun line => bufferedLines_ok
    generalize bufferedLines ((saved.flatMap cookieLine).length + 1) (saved.flatMap cookieLine) = lines
      at back pieces ok
    have plain : ∀ c ∈ saved, PlainCookie c := by
      intro c member
      refine (List.foldlRecOn (motive := fun jar => CountedServers jar ∧ ∀ c ∈ jar.cookies, PlainCookie c) lines
        (loadLine loadedAt) ⟨start.1, ?_⟩ ?_).2 c (back.mem_iff.mpr member)
      · rw [start.2]
        intro c impossible
        cases impossible
      · rintro jar ⟨counted, plain⟩ line inside
        exact ⟨loadLine_counted counted line, loadLine_plain counted plain (ok line inside)⟩
    have comes : ∀ c ∈ saved, ∃ source ∈ saved, ComesFrom source c := by
      intro c member
      refine (List.foldlRecOn (motive := fun jar => CountedServers jar ∧ ∀ c ∈ jar.cookies,
        ∃ source ∈ saved, ComesFrom source c) lines (loadLine loadedAt) ⟨start.1, ?_⟩ ?_).2 c (back.mem_iff.mpr member)
      · rw [start.2]
        intro c impossible
        cases impossible
      · rintro jar ⟨counted, comes⟩ line inside
        refine ⟨loadLine_counted counted line, fun d loaded => ?_⟩
        obtain ⟨source, there, piece⟩ := pieces line inside plain
        rcases loadLine_piece counted (plain source there) (inTime source there) (dated source there).1
          (dated source there).2 piece loaded with older | relates
        · exact comes d older
        · exact ⟨source, there, relates⟩
    have member : c ∈ saved := (ofSaved c).mpr ⟨inJar, timed⟩
    exact ⟨plain c member, lines_fit comes c member⟩
  · intro storable
    have ok : ∀ c ∈ saved, Storable c := fun c member =>
      storable c ((ofSaved c).mp member).1 ((ofSaved c).mp member).2
    rw [bufferedLines_fit ok (Nat.lt_succ_self _), foldl_loadLine ok inTime dated start.1, start.2,
      List.append_nil]
    · exact List.reverse_perm saved
    · intro c member d place same
      rw [start.2] at place
      rcases place with impossible | also
      · cases impossible
      · exact set.oneText ((ofSaved c).mp member).1 ((ofSaved d).mp also).1 same

def thousandSeconds : List UInt8 :=
  ascii [';', ' ', 'e', 'x', 'p', 'i', 'r', 'e', 's', '=', 'T', 'h', 'u', ',', ' ', '0', '1', ' ', 'J', 'a', 'n', ' ',
    '1', '9', '7', '0', ' ', '0', '0', ':', '1', '6', ':', '4', '0', ' ', 'G', 'M', 'T']

def datedCall (pair : List UInt8) : SetCookieCall where
  maxAge := -1
  paranoidSecurity := false
  outside := ⟨fun _ => false, fun _ => 1000, 0⟩
  uri :=
    { string := ascii ['h', 't', 't', 'p', ':', '/', '/', 'h', '.', 'e', 'x', 'a', 'm', 'p', 'l', 'e', '/']
      protocol := .http, ipFamily := 0, user := none, password := none, host := some 7, port := none, data := 17
      fragment := none, post := none, protocollen := 4, userlen := 0, passwordlen := 0, hostlen := 9, portlen := 0
      datalen := 0, fragmentlen := 0, ipv6 := false }
  str := pair ++ thousandSeconds

/-- The cookie `a=b`. -/
theorem cookieFile_roundTrip_iff_plain :
    (loadCookies (setAll []) (some (saveCookies (setAll [datedCall [97, 61, 98]]) 0)) 0).cookies.Perm
      ((setAll [datedCall [97, 61, 98]]).cookies.filter fun c => c.expires ≠ 0) := by
  have jar : (setAll [datedCall [97, 61, 98]]).cookies =
      [⟨[97], [98], [47], uriHost (datedCall []).uri, uriHost (datedCall []).uri, 1000, false⟩] := by
    decide +kernel
  refine (cookieFile_roundTrip_iff [datedCall [97, 61, 98]] [] ?_).mpr ?_
  · rw [jar]
    decide
  · rw [jar]
    intro c member _
    obtain rfl := List.mem_singleton.mp member
    have plain : ∀ b ∈ uriHost (datedCall []).uri, b ≠ 0 ∧ b ≠ 9 ∧ b ≠ 10 := by decide +kernel
    refine ⟨⟨?_, ?_, plain, ?_, plain⟩, by decide +kernel⟩
    · simp [Plain]
    · simp [Plain]
    · simp [Plain]

/-- The value of the cookie `a=b<tab>c` is cut. -/
theorem cookieFile_roundTrip_tab :
    ¬ (loadCookies emptyJar (some (saveCookies (setAll [datedCall [97, 61, 98, 9, 99]]) 0)) 0).cookies.Perm
      ((setAll [datedCall [97, 61, 98, 9, 99]]).cookies.filter fun c => c.expires ≠ 0) := by
  decide +kernel

end Jars

end KcnTools.Cookies
