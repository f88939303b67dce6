import KcnTools.Bittorrent.PieceCache
import Mathlib.Data.List.Induction

/-! What the searches for the next request find: a request to clone in the end game, and a
random or a rarest piece before that. -/

namespace KcnTools.Bittorrent

section Clone
variable {peers : List BittorrentPeerConnection} {peer : BittorrentPeerConnection}

def CanServe (peer : BittorrentPeerConnection) (request : BittorrentPeerRequest) : Prop :=
  testBitfieldBit peer.bitfield request.piece = true ∧ findLocalBittorrentPeerRequest peer request = none

def Outstanding (peers : List BittorrentPeerConnection) (peer : BittorrentPeerConnection)
    (request : BittorrentPeerRequest) : Prop :=
  (∃ active ∈ peers, request ∈ active.localStatus.requests) ∧ CanServe peer request

def requestAt (peers : List BittorrentPeerConnection) (place : Nat × Nat) : Option BittorrentPeerRequest :=
  (peers[place.1]?).bind fun active => active.localStatus.requests[place.2]?

/-- The end game goes on: what is found is a request that the peer can serve, one that is not
cloned yet if there is one, and else one for a piece of least rarity. -/
structure FindsClone (cache : BittorrentPieceCache) (peers : List BittorrentPeerConnection)
    (peer : BittorrentPeerConnection) (found : Option (Nat × Nat)) : Prop where
  progress : (∃ request, Outstanding peers peer request) →
    ∃ request, found.bind (requestAt peers) = some request ∧ Outstanding peers peer request
  fresh : ∀ request, found.bind (requestAt peers) = some request →
    (∃ other, Outstanding peers peer other ∧ other.cloned = false) → request.cloned = false
  rarest : ∀ request, found.bind (requestAt peers) = some request →
    (∀ other, Outstanding peers peer other → other.cloned = true) →
      ∀ other, Outstanding peers peer other → (cache.entry request.piece).rarity ≤ (cache.entry other.piece).rarity

theorem isClonable_iff (request : BittorrentPeerRequest) :
    isClonable peer request = true ↔ CanServe peer request ∧ request.cloned = false := by
  simp [isClonable, CanServe]

theorem findClonableBittorrentPeerRequest_found {place : Nat × Nat}
    (found : findClonableBittorrentPeerRequest peers peer = some place) :
    ∃ request, requestAt peers place = some request ∧ Outstanding peers peer request ∧ request.cloned = false := by
  obtain ⟨active, request, here, there, clonable⟩ := findClonableBittorrentPeerRequest_spec found
  obtain ⟨serves, fresh⟩ := (isClonable_iff request).mp clonable
  refine ⟨request, ?_, ⟨⟨active, List.mem_of_getElem? here, List.mem_of_getElem? there⟩, serves⟩, fresh⟩
  rw [requestAt, here]
  exact there

theorem findClonableBittorrentPeerRequest_none (missed : findClonableBittorrentPeerRequest peers peer = none) :
    ∀ request, Outstanding peers peer request → request.cloned = true := by
  rintro request ⟨⟨active, connected, asked⟩, serves⟩
  unfold findClonableBittorrentPeerRequest at missed
  by_contra notCloned
  have clonable : isClonable peer request = true :=
    (isClonable_iff request).mpr ⟨serves, by simpa using notCloned⟩
  split at missed
  next nowhere =>
    rw [List.findIdx?_eq_none_iff] at nowhere
    have none := nowhere active connected
    rw [List.any_eq_false] at none
    exact none request asked clonable
  next index first =>
    obtain ⟨inside, some, _⟩ := List.findIdx?_eq_some_iff_getElem.mp first
    rw [List.getElem?_eq_getElem inside] at missed
    dsimp only at missed
    rw [Option.map_eq_none_iff, List.findIdx?_eq_none_iff] at missed
    obtain ⟨other, member, found⟩ := List.any_eq_true.mp some
    rw [missed other member] at found
    cases found

end Clone

/-- The search finds nothing once every request that the peer could serve has been cloned. -/
theorem findClonableBittorrentPeerRequest_finds_iff (cache : BittorrentPieceCache)
    (peers : List BittorrentPeerConnection) (peer : BittorrentPeerConnection) :
    FindsClone cache peers peer (findClonableBittorrentPeerRequest peers peer) ↔
      (∃ request, Outstanding peers peer request ∧ request.cloned = false) ∨
        ∀ request, ¬ Outstanding peers peer request := by
  cases searched : findClonableBittorrentPeerRequest peers peer with
  | none =>
      have cloned := findClonableBittorrentPeerRequest_none searched
      constructor
      · intro finds
        refine .inr fun request outstanding => ?_
        obtain ⟨found, here, _⟩ := finds.progress ⟨request, outstanding⟩
        cases here
      · rintro (⟨request, outstanding, fresh⟩ | nothing)
        · rw [cloned request outstanding] at fresh
          cases fresh
        · refine ⟨?_, ?_, ?_⟩
          · rintro ⟨request, outstanding⟩
            exact absurd outstanding (nothing request)
          · intro request here
            cases here
          · intro request here
            cases here
  | some place =>
      obtain ⟨request, here, outstanding, fresh⟩ := findClonableBittorrentPeerRequest_found searched
      have only {found : BittorrentPeerRequest} (same : (some place).bind (requestAt peers) = some found) :
          found = request := Option.some.inj (same.symm.trans here)
      constructor
      · exact fun _ => .inl ⟨request, outstanding, fresh⟩
      · intro _
        refine ⟨fun _ => ⟨request, here, outstanding⟩, ?_, ?_⟩
        · intro found same _
          rw [only same]
          exact fresh
        · intro found same allCloned
          rw [allCloned request outstanding] at fresh
          cases fresh

def seederPeer (requests : List BittorrentPeerRequest) : BittorrentPeerConnection :=
  ⟨⟨requests, false, true, false, false⟩, ⟨[], true, false, false, true⟩, [], setBitfieldBit (initBitfield 1) 0, none⟩

/-- The first peer's request was cloned for a peer that has left since. -/
theorem findClonableBittorrentPeerRequest_cloned :
    let peers := [seederPeer [⟨0, 0, 3, 0, .choke, true, true⟩], seederPeer []]
    ¬ FindsClone (emptyPieceCache 1) peers (seederPeer [])
      (findClonableBittorrentPeerRequest peers (seederPeer [])) := by
  intro peers finds
  obtain ⟨found, here, _⟩ := finds.progress
    ⟨⟨0, 0, 3, 0, .choke, true, true⟩, ⟨_, List.mem_cons_self, List.mem_cons_self⟩, by decide, by decide⟩
  have nothing : findClonableBittorrentPeerRequest peers (seederPeer []) = none := by decide
  rw [nothing] at here
  cases here

def Available (cache : BittorrentPieceCache) (peer : BittorrentPeerConnection) (piece : Nat) : Prop :=
  testBitfieldBit peer.bitfield piece = true ∧ (cache.entry piece).remaining = true

section Table
variable {draws : BittorrentDraws} {cache : BittorrentPieceCache}

theorem mem_spreadPiece {candidates : BittorrentCandidates} {piece : Nat} {slot : Option Nat}
    (member : slot ∈ (spreadPiece candidates piece).pieces) : slot = some piece ∨ slot ∈ candidates.pieces := by
  obtain ⟨position, inside, rfl⟩ := List.mem_mapIdx.mp member
  split
  · exact .inl rfl
  · exact .inr (List.getElem_mem inside)

theorem mem_spreadPiece_all {candidates : BittorrentCandidates} (free : candidates.places = 20) {piece : Nat}
    {slot : Option Nat} (member : slot ∈ (spreadPiece candidates piece).pieces) : slot = some piece := by
  obtain ⟨position, inside, rfl⟩ := List.mem_mapIdx.mp member
  rw [free, if_pos (Nat.mod_one position)]

theorem mem_dropPiece {candidates : BittorrentCandidates} {piece : Nat} {slot : Option Nat}
    (member : slot ∈ (dropPiece draws candidates piece).pieces) : slot = some piece ∨ slot ∈ candidates.pieces := by
  rcases List.mem_or_eq_of_mem_set member with inside | new
  · exact .inr inside
  · exact .inl new

/-- The table behind the pieces that were visited: `fits` is what a piece in it has to meet. -/
structure TableFilled (cache : BittorrentPieceCache) (fits : Nat → Prop) (visited : List Nat)
    (candidates : BittorrentCandidates) : Prop where
  slots : candidates.pieces.length = 20
  positive : 0 < candidates.places
  bound : candidates.places ≤ 20
  untouched : (∀ piece ∈ visited, (cache.entry piece).remaining = false) → candidates = initialCandidates
  filled : (∃ piece ∈ visited, (cache.entry piece).remaining = true) → ∀ slot ∈ candidates.pieces,
    ∃ piece ∈ visited, slot = some piece ∧ (cache.entry piece).remaining = true ∧ fits piece

variable {fits : Nat → Prop} {visited : List Nat} {candidates : BittorrentCandidates} {piece : Nat}

theorem tableFilled_nil : TableFilled cache fits [] initialCandidates where
  slots := rfl
  positive := by decide
  bound := by decide
  untouched _ := rfl
  filled some := by
    obtain ⟨piece, member, _⟩ := some
    cases member

theorem TableFilled.skip (table : TableFilled cache fits visited candidates)
    (taken : (cache.entry piece).remaining = false) : TableFilled cache fits (visited ++ [piece]) candidates where
  slots := table.slots
  positive := table.positive
  bound := table.bound
  untouched none := table.untouched fun other member => none other (List.mem_append_left _ member)
  filled some := by
    obtain ⟨other, member, remaining⟩ := some
    rcases List.mem_append.mp member with earlier | last
    · intro slot inside
      obtain ⟨found, there, facts⟩ := table.filled ⟨other, earlier, remaining⟩ slot inside
      exact ⟨found, List.mem_append_left _ there, facts⟩
    · rw [List.mem_singleton.mp last, taken] at remaining
      cases remaining

/-- A remaining piece takes some of the slots, and all of them if it is the first one. -/
theorem TableFilled.place {after : BittorrentCandidates} (remaining : (cache.entry piece).remaining = true)
    (fit : fits piece) (slots : after.pieces.length = 20) (positive : 0 < after.places) (bound : after.places ≤ 20)
    (members : ∀ slot ∈ after.pieces, slot = some piece ∨ ∃ other ∈ visited, slot = some other ∧
      (cache.entry other).remaining = true ∧ fits other) : TableFilled cache fits (visited ++ [piece]) after where
  slots := slots
  positive := positive
  bound := bound
  untouched none := by
    rw [none piece (List.mem_append_right _ (List.mem_singleton_self piece))] at remaining
    cases remaining
  filled _ slot inside := by
    rcases members slot inside with rfl | ⟨other, member, facts⟩
    · exact ⟨piece, List.mem_append_right _ (List.mem_singleton_self piece), rfl, remaining, fit⟩
    · exact ⟨other, List.mem_append_left _ member, facts⟩

theorem TableFilled.spreadAll (remaining : (cache.entry piece).remaining = true) (fit : fits piece)
    (slots : candidates.pieces.length = 20) (free : candidates.places = 20) :
    TableFilled cache fits (visited ++ [piece]) (spreadPiece candidates piece) := by
  refine TableFilled.place remaining fit (List.length_mapIdx.trans slots) ?_ ?_ ?_
  · show 0 < candidates.places / 2
    omega
  · show candidates.places / 2 ≤ 20
    omega
  · exact fun slot inside => .inl (mem_spreadPiece_all free inside)

theorem TableFilled.old (table : TableFilled cache fits visited candidates)
    (seen : ¬ ∀ piece ∈ visited, (cache.entry piece).remaining = false) {slot : Option Nat}
    (inside : slot ∈ candidates.pieces) : ∃ other ∈ visited, slot = some other ∧
      (cache.entry other).remaining = true ∧ fits other := by
  apply table.filled _ slot inside
  simpa using seen

theorem TableFilled.keep (table : TableFilled cache fits visited candidates)
    (seen : ¬ ∀ piece ∈ visited, (cache.entry piece).remaining = false) :
    TableFilled cache fits (visited ++ [piece]) candidates where
  slots := table.slots
  positive := table.positive
  bound := table.bound
  untouched none := absurd (fun other member => none other (List.mem_append_left _ member)) seen
  filled _ slot inside := by
    obtain ⟨other, member, facts⟩ := table.old seen inside
    exact ⟨other, List.mem_append_left _ member, facts⟩

theorem TableFilled.spread (table : TableFilled cache fits visited candidates)
    (remaining : (cache.entry piece).remaining = true) (fit : fits piece) (free : 2 ≤ candidates.places) :
    TableFilled cache fits (visited ++ [piece]) (spreadPiece candidates piece) := by
  by_cases first : ∀ piece ∈ visited, (cache.entry piece).remaining = false
  · exact TableFilled.spreadAll remaining fit table.slots (by rw [table.untouched first]; rfl)
  · have bound := table.bound
    refine TableFilled.place remaining fit (List.length_mapIdx.trans table.slots) ?_ ?_ ?_
    · show 0 < candidates.places / 2
      omega
    · show candidates.places / 2 ≤ 20
      omega
    · intro slot inside
      rcases mem_spreadPiece inside with new | old
      · exact .inl new
      · exact .inr (table.old first old)

theorem TableFilled.drop (table : TableFilled cache fits visited candidates)
    (remaining : (cache.entry piece).remaining = true) (fit : fits piece) (full : candidates.places < 2) :
    TableFilled cache fits (visited ++ [piece]) (dropPiece draws candidates piece) := by
  have first : ¬ ∀ piece ∈ visited, (cache.entry piece).remaining = false := by
    intro first
    rw [table.untouched first] at full
    exact absurd full (by decide)
  refine TableFilled.place remaining fit (List.length_set.trans table.slots) table.positive table.bound ?_
  intro slot inside
  rcases mem_dropPiece inside with new | old
  · exact .inl new
  · exact .inr (table.old first old)

theorem considerRandom_filled (draws : BittorrentDraws) (cache : BittorrentPieceCache) (visited : List Nat) :
    TableFilled cache (fun _ => True) visited (visited.foldl (considerRandom draws cache) initialCandidates) := by
  induction visited using List.reverseRecOn with
  | nil => exact tableFilled_nil
  | append_singleton visited piece table =>
      rw [List.foldl_append, List.foldl_cons, List.foldl_nil, considerRandom]
      split
      next taken => exact table.skip (by simpa using taken)
      next wanted =>
        have remaining : (cache.entry piece).remaining = true := by simpa using wanted
        split
        next free => exact table.spread remaining trivial free
        next full => exact table.drop remaining trivial (by omega)

/-- The pieces in the table are of the least rarity that was seen. -/
structure RarestFilled (cache : BittorrentPieceCache) (visited : List Nat) (candidates : BittorrentCandidates) :
    Prop where
  table : TableFilled cache (fun piece => (cache.entry piece).rarity = candidates.rarity) visited candidates
  least : ∀ piece ∈ visited, (cache.entry piece).remaining = true → candidates.rarity ≤ (cache.entry piece).rarity

theorem considerRarest_filled (draws : BittorrentDraws) (rarities : ∀ piece, (cache.entry piece).rarity < 2 ^ 16)
    (visited : List Nat) :
    RarestFilled cache visited (visited.foldl (considerRarest draws cache) initialCandidates) := by
  induction visited using List.reverseRecOn with
  | nil => exact ⟨tableFilled_nil, fun piece member => by cases member⟩
  | append_singleton visited piece rarest =>
      rw [List.foldl_append, List.foldl_cons, List.foldl_nil]
      generalize visited.foldl (considerRarest draws cache) initialCandidates = candidates at rarest
      have least {limit : Nat} (last : (cache.entry piece).remaining = true → limit ≤ (cache.entry piece).rarity)
          (below : limit ≤ candidates.rarity) : ∀ other ∈ visited ++ [piece], (cache.entry other).remaining = true →
            limit ≤ (cache.entry other).rarity := by
        intro other member remaining
        rcases List.mem_append.mp member with earlier | here
        · exact Nat.le_trans below (rarest.least other earlier remaining)
        · rw [List.mem_singleton.mp here] at remaining ⊢
          exact last remaining
      unfold considerRarest
      dsimp only
      split
      next passed =>
        rw [Bool.or_eq_true, Bool.not_eq_true', decide_eq_true_eq] at passed
        rcases passed with taken | common
        · exact ⟨rarest.table.skip taken, least (by simp [taken]) (Nat.le_refl _)⟩
        · by_cases first : ∀ piece ∈ visited, (cache.entry piece).remaining = false
          · rw [rarest.table.untouched first] at common
            have small := rarities piece
            exact absurd common (by show ¬ 2 ^ 16 - 1 < _; omega)
          · exact ⟨rarest.table.keep first, least (fun _ => Nat.le_of_lt common) (Nat.le_refl _)⟩
      next wanted =>
        have remaining : (cache.entry piece).remaining = true := by
          by_contra taken
          exact wanted (by simp [taken])
        split
        next rarer =>
          refine ⟨TableFilled.spreadAll remaining rfl rarest.table.slots rfl, least (fun _ => Nat.le_refl _) ?_⟩
          exact Nat.le_of_lt rarer
        next notRarer =>
          have same : (cache.entry piece).rarity = candidates.rarity := by
            have : ¬ candidates.rarity < (cache.entry piece).rarity := fun common => wanted (by simp [common])
            omega
          have kept := least (fun _ => Nat.le_of_eq same.symm) (Nat.le_refl _)
          split
          next full => exact ⟨rarest.table.drop remaining same full, kept⟩
          next free => exact ⟨rarest.table.spread remaining same (by omega), kept⟩

/-- What the searches do with the table is defined: each stride is positive, and divides no
more than there is. -/
theorem table_stride {cache : BittorrentPieceCache} {fits : Nat → Prop} {visited : List Nat}
    {candidates : BittorrentCandidates} (table : TableFilled cache fits visited candidates) :
    candidates.places ≠ 0 ∧ 0 < 20 / candidates.places ∧ candidates.pieces.length = 20 := by
  have bound := table.bound
  have positive := table.positive
  exact ⟨by omega, Nat.div_pos bound positive, table.slots⟩

theorem pickPiece_filled (draws : BittorrentDraws) {candidates : BittorrentCandidates}
    (table : TableFilled cache fits visited candidates) :
    (pickPiece draws candidates = none ↔ ∀ piece ∈ visited, (cache.entry piece).remaining = false) ∧
      ∀ piece, pickPiece draws candidates = some piece →
        piece ∈ visited ∧ (cache.entry piece).remaining = true ∧ fits piece := by
  have inside : draws.pick.val < candidates.pieces.length := by
    rw [table.slots]
    exact draws.pick.isLt
  have picked : pickPiece draws candidates = candidates.pieces[draws.pick.val] := by
    rw [pickPiece, List.getElem?_eq_getElem inside]
    rfl
  by_cases first : ∀ piece ∈ visited, (cache.entry piece).remaining = false
  · have empty : pickPiece draws candidates = none := by
      rw [table.untouched first, pickPiece, initialCandidates, List.getElem?_replicate]
      split <;> rfl
    refine ⟨⟨fun _ => first, fun _ => empty⟩, fun piece found => ?_⟩
    rw [empty] at found
    cases found
  · obtain ⟨piece, member, here, remaining, fit⟩ := table.old first (List.getElem_mem inside)
    rw [picked, here]
    refine ⟨⟨fun none => absurd none (Option.some_ne_none _), fun none => absurd none first⟩, fun found same => ?_⟩
    rw [← Option.some.inj same]
    exact ⟨member, remaining, fit⟩

end Table

/-- A search is sound and complete, and all its divisions and table accesses are defined on the way. -/
structure SelectsPiece (cache : BittorrentPieceCache) (peer : BittorrentPeerConnection)
    (consider : BittorrentCandidates → Nat → BittorrentCandidates) (found : Option Nat) : Prop where
  none_iff : found = none ↔ ∀ piece, ¬ Available cache peer piece
  available : ∀ piece, found = some piece → Available cache peer piece
  strides : ∀ visited rest, (bitfieldSetBits peer.bitfield).reverse = visited ++ rest →
    let candidates := visited.foldl consider initialCandidates
    candidates.places ≠ 0 ∧ 0 < 20 / candidates.places ∧ candidates.pieces.length = 20
  entries : ∀ piece ∈ (bitfieldSetBits peer.bitfield).reverse, piece < cache.entries.length

theorem selectsPiece_of_filled {cache : BittorrentPieceCache} {peer : BittorrentPeerConnection}
    (table : peer.bitfield.bitsize = cache.entries.length) (draws : BittorrentDraws)
    {consider : BittorrentCandidates → Nat → BittorrentCandidates} {fits : List Nat → Nat → Prop}
    (filled : ∀ visited, TableFilled cache (fits visited) visited (visited.foldl consider initialCandidates)) :
    SelectsPiece cache peer consider
      (pickPiece draws ((bitfieldSetBits peer.bitfield).reverse.foldl consider initialCandidates)) := by
  obtain ⟨none_iff, found⟩ := pickPiece_filled draws (filled (bitfieldSetBits peer.bitfield).reverse)
  refine ⟨none_iff.trans ?_, fun piece here => ?_, fun visited _ _ => table_stride (filled visited),
    fun piece member => ?_⟩
  · constructor
    · rintro none piece ⟨has, remaining⟩
      rw [none piece (List.mem_reverse.mpr (mem_bitfieldSetBits.mpr has))] at remaining
      cases remaining
    · intro none piece member
      by_contra remaining
      exact none piece ⟨mem_bitfieldSetBits.mp (List.mem_reverse.mp member), by simpa using remaining⟩
  · obtain ⟨member, remaining, _⟩ := found piece here
    exact ⟨mem_bitfieldSetBits.mp (List.mem_reverse.mp member), remaining⟩
  · rw [← table]
    exact testBitfieldBit_lt (mem_bitfieldSetBits.mp (List.mem_reverse.mp member))

/-- Whatever is drawn, both searches give a piece that can be had if there is one, and the
second one a piece of least rarity. -/
theorem findInBittorrentPieceCache_selects (draws : BittorrentDraws) (cache : BittorrentPieceCache)
    (peer : BittorrentPeerConnection) (table : peer.bitfield.bitsize = cache.entries.length)
    (rarities : ∀ piece, (cache.entry piece).rarity < 2 ^ 16) :
    SelectsPiece cache peer (considerRandom draws cache) (findRandomInBittorrentPieceCache draws cache peer) ∧
      SelectsPiece cache peer (considerRarest draws cache) (findRarestInBittorrentPieceCache draws cache peer) ∧
      ∀ piece, findRarestInBittorrentPieceCache draws cache peer = some piece →
        ∀ other, Available cache peer other → (cache.entry piece).rarity ≤ (cache.entry other).rarity := by
  refine ⟨selectsPiece_of_filled table draws (considerRandom_filled draws cache),
    selectsPiece_of_filled table draws fun visited => (considerRarest_filled draws rarities visited).table, ?_⟩
  rintro piece found other ⟨has, remaining⟩
  have rarest := considerRarest_filled draws rarities (bitfieldSetBits peer.bitfield).reverse
  obtain ⟨_, _, same⟩ := (pickPiece_filled draws rarest.table).2 piece found
  rw [same]
  exact rarest.least other (List.mem_reverse.mpr (mem_bitfieldSetBits.mpr has)) remaining

/-- The peer has the pieces 0 and 2 of three, and piece 2 is rarer than piece 0. -/
theorem findInBittorrentPieceCache_selects_rarer :
    let draws : BittorrentDraws := ⟨fun _ => 0, 7⟩
    let entry (rarity : Nat) : BittorrentPieceCacheEntry := ⟨rarity, false, true, false, true, none, none⟩
    let cache := { emptyPieceCache 3 with entries := [entry 5, entry 1, entry 2] }
    let peer := { seederPeer [] with bitfield := setBitfieldBit (setBitfieldBit (initBitfield 3) 0) 2 }
    SelectsPiece cache peer (considerRarest draws cache) (findRarestInBittorrentPieceCache draws cache peer) ∧
      findRarestInBittorrentPieceCache draws cache peer = some 2 := by
  intro draws entry cache peer
  have rarities : ∀ piece, (cache.entry piece).rarity < 2 ^ 16 := by
    intro piece
    match piece with
    | 0 | 1 | 2 => decide
    | piece + 3 => exact (by decide : 0 < 2 ^ 16)
  exact ⟨(findInBittorrentPieceCache_selects draws cache peer (by decide) rarities).2.1, by decide⟩

end KcnTools.Bittorrent
