import KcnTools.Bittorrent.PieceCache
import Mathlib

/-! How `add_piece_to_bittorrent_free_list` splits a piece into requests, for every length of
a piece and every length of a request. -/

namespace KcnTools.Bittorrent

section Split
variable {requestLength pieceLength : Nat}

def splitCount (requestLength pieceLength : Nat) : Nat := (pieceLength + requestLength - 1) / requestLength

def splitBlock (piece requestLength pieceLength block : Nat) : BittorrentPeerRequest :=
  ⟨piece, block * requestLength, min requestLength (pieceLength - block * requestLength), block % 2 ^ 16, .choke, false,
    false⟩

theorem lt_splitCount (positive : 0 < requestLength) (pieceLength block : Nat) :
    block < splitCount requestLength pieceLength ↔ block * requestLength < pieceLength := by
  rw [splitCount, Nat.lt_iff_add_one_le, Nat.le_div_iff_mul_le positive, Nat.succ_mul]
  omega

/-- The loop makes one request after another; none of its sums leaves 32 bits. -/
theorem pieceRequests_splitBlocks (positive : 0 < requestLength) (shorter : requestLength ≤ pieceLength)
    (small : pieceLength < 2 ^ 31) (piece fuel block : Nat) (inside : block * requestLength < pieceLength)
    (enough : pieceLength ≤ block * requestLength + fuel) :
    pieceRequests piece requestLength pieceLength fuel (block * requestLength) (block % 2 ^ 16) =
      (List.range' block (splitCount requestLength pieceLength - block)).map
        (splitBlock piece requestLength pieceLength) := by
  induction fuel generalizing block with
  | zero => omega
  | succ fuel ih =>
      have counted := (lt_splitCount positive pieceLength block).mpr inside
      have unwrapped : (block * requestLength + requestLength) % 2 ^ 32 = block * requestLength + requestLength :=
        Nat.mod_eq_of_lt (by omega)
      have length : (if pieceLength < block * requestLength + requestLength then pieceLength - block * requestLength
          else requestLength) = min requestLength (pieceLength - block * requestLength) := by
        split <;> omega
      have first : List.range' block (splitCount requestLength pieceLength - block) =
          block :: List.range' (block + 1) (splitCount requestLength pieceLength - (block + 1)) := by
        rw [← List.range'_succ]
        congr 1
        omega
      have next := lt_splitCount positive pieceLength (block + 1)
      rw [Nat.succ_mul] at next
      rw [pieceRequests, unwrapped, length, first, List.map_cons]
      congr 1
      split
      next more =>
        have full : min requestLength (pieceLength - block * requestLength) = requestLength := by omega
        rw [full, Nat.mod_add_mod, ← Nat.succ_mul]
        exact ih (block + 1) (by rw [Nat.succ_mul]; omega) (by rw [Nat.succ_mul]; omega)
      next last =>
        have none : splitCount requestLength pieceLength - (block + 1) = 0 := by omega
        rw [none]
        rfl

theorem pieceRequests_eq_splitBlocks (positive : 0 < requestLength) (shorter : requestLength ≤ pieceLength)
    (small : pieceLength < 2 ^ 31) (piece : Nat) :
    pieceRequests piece requestLength pieceLength pieceLength 0 0 =
      (List.range (splitCount requestLength pieceLength)).map (splitBlock piece requestLength pieceLength) := by
  have split := pieceRequests_splitBlocks positive shorter small piece pieceLength 0 (by omega) (by omega)
  rw [Nat.zero_mul, Nat.sub_zero, ← List.range_eq_range'] at split
  exact split

end Split

def BittorrentPeerRequest.Holds (request : BittorrentPeerRequest) (byte : Nat) : Prop :=
  request.offset ≤ byte ∧ byte < request.offset + request.length

/-- The requests are a partition of the piece, and the bits are there to tell when all of them
are answered. -/
structure SplitsExactly (requestLength pieceLength : Nat) (requests : List BittorrentPeerRequest)
    (blocks : Bitfield) : Prop where
  disjoint : requests.Pairwise fun first second => ∀ byte, ¬ (first.Holds byte ∧ second.Holds byte)
  covered : ∀ byte, byte < pieceLength ↔ ∃ request ∈ requests, request.Holds byte
  lengths : ∀ request ∈ requests, 1 ≤ request.length ∧ request.length ≤ requestLength
  numbers : (requests.map BittorrentPeerRequest.block).Nodup
  bits : blocks.bitsize = requests.length
  answered : ∀ answers : List BittorrentPeerRequest, (∀ answer ∈ answers, answer ∈ requests) →
    (bitfieldIsSet (answers.foldl (fun blocks answer => setBitfieldBit blocks answer.block) blocks) = true ↔
      ∀ request ∈ requests, request ∈ answers)

section Exact
variable {requestLength pieceLength : Nat} (piece : Nat)

theorem splitBlocks_disjoint (count : Nat) :
    ((List.range count).map (splitBlock piece requestLength pieceLength)).Pairwise
      fun first second => ∀ byte, ¬ (first.Holds byte ∧ second.Holds byte) := by
  rw [List.pairwise_map]
  apply List.pairwise_lt_range.imp
  rintro first second before byte ⟨⟨_, inFirst⟩, inSecond, _⟩
  have later : first * requestLength + requestLength ≤ second * requestLength := by
    rw [← Nat.succ_mul]
    exact Nat.mul_le_mul_right requestLength before
  simp only [splitBlock] at inFirst inSecond
  omega

theorem splitBlocks_covered (positive : 0 < requestLength) (byte : Nat) :
    byte < pieceLength ↔ ∃ request ∈ (List.range (splitCount requestLength pieceLength)).map
      (splitBlock piece requestLength pieceLength), request.Holds byte := by
  constructor
  · intro inside
    have lower := Nat.div_mul_le_self byte requestLength
    have upper := Nat.lt_div_mul_add positive (a := byte)
    refine ⟨splitBlock piece requestLength pieceLength (byte / requestLength), List.mem_map_of_mem ?_, ?_⟩
    · rw [List.mem_range, lt_splitCount positive]
      omega
    · simp only [splitBlock, BittorrentPeerRequest.Holds]
      omega
  · rintro ⟨request, member, lower, upper⟩
    obtain ⟨block, _, rfl⟩ := List.mem_map.mp member
    simp only [splitBlock] at lower upper
    omega

theorem setBitfieldBits_test (answers : List BittorrentPeerRequest) (blocks : Bitfield) (bit : Nat) :
    let after := answers.foldl (fun blocks answer => setBitfieldBit blocks answer.block) blocks
    after.bitsize = blocks.bitsize ∧ (testBitfieldBit after bit = true ↔
      testBitfieldBit blocks bit = true ∨ bit < blocks.bitsize ∧ ∃ answer ∈ answers, answer.block = bit) := by
  induction answers generalizing blocks with
  | nil => simp
  | cons answer answers ih =>
      obtain ⟨size, test⟩ := ih (setBitfieldBit blocks answer.block)
      rw [setBitfieldBit_bitsize] at size test
      refine ⟨size, ?_⟩
      rw [List.foldl_cons, test, testBitfieldBit_set, Bool.or_eq_true, decide_eq_true_eq, List.exists_mem_cons_iff]
      constructor
      · rintro ((before | ⟨rfl, inside⟩) | ⟨inside, later⟩)
        · exact .inl before
        · exact .inr ⟨inside, .inl rfl⟩
        · exact .inr ⟨inside, .inr later⟩
      · rintro (before | ⟨inside, rfl | later⟩)
        · exact .inl (.inl before)
        · exact .inl (.inr ⟨rfl, inside⟩)
        · exact .inr ⟨inside, later⟩

theorem bitfieldIsSet_answers (requests answers : List BittorrentPeerRequest)
    (asked : ∀ answer ∈ answers, answer ∈ requests)
    (numbered : ∀ bit, bit < requests.length ↔ ∃ request ∈ requests, request.block = bit)
    (apart : ∀ first ∈ requests, ∀ second ∈ requests, first.block = second.block → first = second) :
    bitfieldIsSet (answers.foldl (fun blocks answer => setBitfieldBit blocks answer.block)
        (initBitfield requests.length)) = true ↔ ∀ request ∈ requests, request ∈ answers := by
  have bits (bit : Nat) := setBitfieldBits_test answers (initBitfield requests.length) bit
  simp only [testBitfieldBit_init, initBitfield_bitsize, Bool.false_eq_true, false_or] at bits
  rw [bitfieldIsSet_iff, (bits 0).1]
  constructor
  · intro full request member
    have inside := (numbered request.block).mpr ⟨request, member, rfl⟩
    obtain ⟨_, answer, given, same⟩ := (bits request.block).2.mp (full request.block inside)
    rw [apart request member answer (asked answer given) same.symm]
    exact given
  · intro all bit inside
    obtain ⟨request, member, same⟩ := (numbered bit).mp inside
    exact (bits bit).2.mpr ⟨inside, request, all request member, same⟩

theorem splitBlocks_numbered (few : splitCount requestLength pieceLength < 2 ^ 16) (bit : Nat) :
    bit < splitCount requestLength pieceLength ↔ ∃ request ∈ (List.range (splitCount requestLength pieceLength)).map
      (splitBlock piece requestLength pieceLength), request.block = bit := by
  constructor
  · intro inside
    refine ⟨splitBlock piece requestLength pieceLength bit, List.mem_map_of_mem (List.mem_range.mpr inside), ?_⟩
    exact Nat.mod_eq_of_lt (Nat.lt_trans inside few)
  · rintro ⟨request, member, rfl⟩
    obtain ⟨block, inside, rfl⟩ := List.mem_map.mp member
    exact Nat.lt_of_le_of_lt (Nat.mod_le block _) (List.mem_range.mp inside)

theorem splitBlocks_apart {count first second : Nat} (few : count < 2 ^ 16) (inside : first < count)
    (within : second < count) (same : (splitBlock piece requestLength pieceLength first).block =
      (splitBlock piece requestLength pieceLength second).block) : first = second := by
  change first % 2 ^ 16 = second % 2 ^ 16 at same
  rwa [Nat.mod_eq_of_lt (Nat.lt_trans inside few), Nat.mod_eq_of_lt (Nat.lt_trans within few)] at same

/-- Only the numbers of the blocks can go wrong: they and the size of the field have 16 bits. -/
theorem splitBlocks_exact_iff (positive : 0 < requestLength) (least : 0 < pieceLength) :
    let length := min requestLength pieceLength
    let requests := (List.range (splitCount length pieceLength)).map (splitBlock piece length pieceLength)
    SplitsExactly requestLength pieceLength requests (initBitfield (requests.length % 2 ^ 16)) ↔
      splitCount length pieceLength < 2 ^ 16 := by
  intro length requests
  have cut : 0 < length := Nat.lt_min.mpr ⟨positive, least⟩
  have count : requests.length = splitCount length pieceLength := by
    rw [List.length_map, List.length_range]
  constructor
  · intro exact
    have bits := exact.bits
    rw [initBitfield_bitsize, count] at bits
    rw [← bits]
    exact Nat.mod_lt _ (by decide)
  · intro few
    have apart : ∀ first ∈ requests, ∀ second ∈ requests, first.block = second.block → first = second := by
      intro first member second other same
      obtain ⟨block, inside, rfl⟩ := List.mem_map.mp member
      obtain ⟨otherBlock, within, rfl⟩ := List.mem_map.mp other
      rw [splitBlocks_apart piece few (List.mem_range.mp inside) (List.mem_range.mp within) same]
    rw [count, Nat.mod_eq_of_lt few]
    refine ⟨splitBlocks_disjoint piece _, splitBlocks_covered piece cut, ?_, ?_, ?_, ?_⟩
    · intro request member
      obtain ⟨block, inside, rfl⟩ := List.mem_map.mp member
      have starts := (lt_splitCount cut pieceLength block).mp (List.mem_range.mp inside)
      simp only [splitBlock]
      omega
    · rw [List.map_map, List.Nodup, List.pairwise_map]
      apply List.pairwise_lt_range.imp_of_mem
      intro first second inside within before same
      have := splitBlocks_apart piece few (List.mem_range.mp inside) (List.mem_range.mp within) same
      omega
    · rw [initBitfield_bitsize, count]
    · intro answers asked
      rw [← count]
      refine bitfieldIsSet_answers requests answers asked (fun bit => ?_) apart
      rw [count]
      exact splitBlocks_numbered piece few bit

theorem pieceRequests_exact_iff (positive : 0 < requestLength) (least : 0 < pieceLength)
    (small : pieceLength < 2 ^ 31) :
    let requests := pieceRequests piece (min requestLength pieceLength) pieceLength pieceLength 0 0
    requests ≠ [] ∧ (SplitsExactly requestLength pieceLength requests (initBitfield (requests.length % 2 ^ 16)) ↔
      splitCount (min requestLength pieceLength) pieceLength < 2 ^ 16) := by
  have cut : 0 < min requestLength pieceLength := Nat.lt_min.mpr ⟨positive, least⟩
  have split := pieceRequests_eq_splitBlocks cut (Nat.min_le_right _ _) small piece
  have exact := splitBlocks_exact_iff piece positive least
  dsimp only at exact ⊢
  rw [← split] at exact
  refine ⟨fun empty => ?_, exact⟩
  have count := congrArg List.length empty
  rw [split, List.length_map, List.length_range, List.length_nil] at count
  have first := (lt_splitCount cut pieceLength 0).mpr (by omega)
  omega

end Exact

theorem addPieceToBittorrentFreeList_parts (options : BittorrentOptions) {bittorrent : BittorrentConnection}
    {piece : Nat}
    (inside : piece < bittorrent.cache.entries.length) :
    let pieceLength := getBittorrentPieceLength bittorrent.metainfo piece
    let requests := pieceRequests piece (min options.requestLength pieceLength) pieceLength pieceLength 0 0
    let result := addPieceToBittorrentFreeList options bittorrent piece
    result.2 = requests.getLast? ∧ result.1.cache.freeList = bittorrent.cache.freeList ++ requests.dropLast ∧
      (result.1.cache.entry piece).blocks = some (initBitfield (requests.length % 2 ^ 16)) := by
  intro pieceLength requests result
  refine ⟨rfl, rfl, ?_⟩
  let blocked := bittorrent.cache.modifyEntry piece fun entry =>
    { entry with blocks := some (initBitfield (requests.length % 2 ^ 16)) }
  have within : piece < blocked.entries.length := by
    show piece < (bittorrent.cache.entries.modify piece _).length
    rw [List.length_modify]
    exact inside
  show ((blocked.modifyEntry piece fun entry => { entry with remaining := (0 : Int) < -1 }).entry piece).blocks = _
  rw [BittorrentPieceCache.entry_modifyEntry within, if_pos rfl, BittorrentPieceCache.entry_modifyEntry inside,
    if_pos rfl]

/-- The split is exact for the pieces of fewer than 65536 requests, and for no others. -/
theorem addPieceToBittorrentFreeList_exact_iff (options : BittorrentOptions) (bittorrent : BittorrentConnection)
    (piece pieceLength : Nat) (inside : piece < bittorrent.cache.entries.length) (least : 0 < pieceLength)
    (small : pieceLength < 2 ^ 31) :
    ∃ appended request blocks,
      appended ++ [request] =
        pieceRequests piece (min options.requestLength pieceLength) pieceLength pieceLength 0 0 ∧
      (getBittorrentPieceLength bittorrent.metainfo piece = pieceLength →
        let result := addPieceToBittorrentFreeList options bittorrent piece
        result.2 = some request ∧ result.1.cache.freeList = bittorrent.cache.freeList ++ appended ∧
          (result.1.cache.entry piece).blocks = some blocks) ∧
      (SplitsExactly options.requestLength pieceLength (appended ++ [request]) blocks ↔
        splitCount (min options.requestLength pieceLength) pieceLength < 2 ^ 16) := by
  obtain ⟨filled, exact⟩ := pieceRequests_exact_iff piece options.requestLengthPositive least small
  refine ⟨_, _, initBitfield ((pieceRequests piece (min options.requestLength pieceLength) pieceLength pieceLength 0
    0).length % 2 ^ 16), List.dropLast_append_getLast filled, ?_, ?_⟩
  · rintro rfl
    obtain ⟨last, appended, blocks⟩ := addPieceToBittorrentFreeList_parts options inside
    exact ⟨last.trans (List.getLast?_eq_some_getLast filled), appended, blocks⟩
  · rw [List.dropLast_append_getLast filled]
    exact exact

def onePiece (pieceLength : Nat) (positive : 0 < pieceLength) (bound : pieceLength < 2 ^ 31 - 1) :
    BittorrentConnection :=
  initBittorrentPieceCache ⟨1, pieceLength, pieceLength, [], [⟨pieceLength, true, []⟩], Nat.one_pos, onePiece_bound,
    bound, positive, Nat.le_refl _⟩ 0

/-- A piece of 40000 bytes gets three requests by default. -/
theorem addPieceToBittorrentFreeList_exact_three :
    let bittorrent := onePiece 40000 (by decide) (by decide)
    let result := addPieceToBittorrentFreeList (defaultBittorrentOptions id) bittorrent 0
    ∃ appended request blocks, result.2 = some request ∧ result.1.cache.freeList = appended ∧ appended.length = 2 ∧
      (result.1.cache.entry 0).blocks = some blocks ∧
      SplitsExactly bittorrentRequestLength 40000 (appended ++ [request]) blocks := by
  intro bittorrent result
  obtain ⟨appended, request, blocks, all, parts, exact⟩ :=
    addPieceToBittorrentFreeList_exact_iff (defaultBittorrentOptions id) bittorrent 0 40000 (by decide) (by decide)
    (by decide)
  obtain ⟨last, freeList, bits⟩ := parts rfl
  have three : (pieceRequests 0 (min (defaultBittorrentOptions id).requestLength 40000) 40000 40000 0 0).length = 3 := by
    decide +kernel
  rw [← all, List.length_append, List.length_singleton] at three
  exact ⟨appended, request, blocks, last, freeList, by omega, bits, exact.mpr (by decide)⟩

/-- A piece of 2^30 bytes gets 65536 requests by default: their number is 0 in 16 bits. -/
theorem addPieceToBittorrentFreeList_wraps :
    let bittorrent := onePiece (2 ^ 30) (by decide) (by decide)
    let result := addPieceToBittorrentFreeList (defaultBittorrentOptions id) bittorrent 0
    ∃ appended request blocks, result.2 = some request ∧ result.1.cache.freeList = appended ∧
      (result.1.cache.entry 0).blocks = some blocks ∧
      ¬ SplitsExactly bittorrentRequestLength (2 ^ 30) (appended ++ [request]) blocks := by
  intro bittorrent result
  have length : getBittorrentPieceLength bittorrent.metainfo 0 = 2 ^ 30 := rfl
  have parts := addPieceToBittorrentFreeList_parts (defaultBittorrentOptions id)
    (show 0 < bittorrent.cache.entries.length by decide)
  dsimp only at parts
  rw [length] at parts
  obtain ⟨last, appended, blocks⟩ := parts
  rw [show bittorrent.cache.freeList = [] from rfl, List.nil_append] at appended
  obtain ⟨filled, exact⟩ := pieceRequests_exact_iff 0 (defaultBittorrentOptions id).requestLengthPositive
    (show 0 < 2 ^ 30 by decide) (by decide)
  refine ⟨_, _, _, last.trans (List.getLast?_eq_some_getLast filled), appended, blocks, ?_⟩
  rw [List.dropLast_append_getLast filled]
  exact fun split => absurd (exact.mp split) (by decide)

end KcnTools.Bittorrent
