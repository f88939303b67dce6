import KcnTools.Bittorrent.PieceCounters
import KcnTools.Bittorrent.BlockSplit
import KcnTools.Lib.Pool

/-!
The blocks that a piece is split into. The open blocks, those that have not arrived of the
pieces that are loading, are what the free list and the peers' requests have to serve.
-/

namespace KcnTools.Bittorrent

open Modify Pool

variable {options : BittorrentOptions} {metainfo : BittorrentMeta}

structure BlockRange where
  piece : Nat
  offset : Nat
  length : Nat
  block : Nat
  deriving DecidableEq

def blockLength (options : BittorrentOptions) (metainfo : BittorrentMeta) (piece : Nat) : Nat :=
  min options.requestLength (getBittorrentPieceLength metainfo piece)

def blockCount (options : BittorrentOptions) (metainfo : BittorrentMeta) (piece : Nat) : Nat :=
  (getBittorrentPieceLength metainfo piece + blockLength options metainfo piece - 1) /
    blockLength options metainfo piece

def blockRange (options : BittorrentOptions) (metainfo : BittorrentMeta) (piece block : Nat) :
    BlockRange :=
  let offset := block * blockLength options metainfo piece
  ⟨piece, offset, min (blockLength options metainfo piece)
    (getBittorrentPieceLength metainfo piece - offset), block⟩

def requestRange (request : BittorrentPeerRequest) : BlockRange :=
  ⟨request.piece, request.offset, request.length, request.block⟩

def requestJob (request : BittorrentPeerRequest) : Job BlockRange :=
  ⟨requestRange request, request.cloned⟩

def peerJobs (peer : BittorrentPeerConnection) : List (Job BlockRange) :=
  peer.localStatus.requests.map requestJob

def openBlocks (options : BittorrentOptions) (metainfo : BittorrentMeta)
    (cache : BittorrentPieceCache) : Set BlockRange :=
  fun range => ∃ piece block blocks, (cache.entry piece).blocks = some blocks ∧
    block < blocks.bitsize ∧ testBitfieldBit blocks block = false ∧
    range = blockRange options metainfo piece block

theorem blockLength_positive (options : BittorrentOptions) (metainfo : BittorrentMeta)
    (piece : Nat) : 0 < blockLength options metainfo piece :=
  Nat.lt_min.mpr ⟨options.requestLengthPositive, getBittorrentPieceLength_positive metainfo piece⟩

theorem lt_blockCount (options : BittorrentOptions) (metainfo : BittorrentMeta)
    (piece block : Nat) : block < blockCount options metainfo piece ↔
      block * blockLength options metainfo piece < getBittorrentPieceLength metainfo piece :=
  lt_splitCount (blockLength_positive options metainfo piece) _ block

def blockRequest (options : BittorrentOptions) (metainfo : BittorrentMeta) (piece block : Nat) :
    BittorrentPeerRequest :=
  let range := blockRange options metainfo piece block
  ⟨piece, range.offset, range.length, block, .choke, false, false⟩

def splitRequest (options : BittorrentOptions) (metainfo : BittorrentMeta) (piece block : Nat) :
    BittorrentPeerRequest :=
  { blockRequest options metainfo piece block with block := block % 2 ^ 16 }

theorem blockCount_positive (options : BittorrentOptions) (metainfo : BittorrentMeta) (piece : Nat) :
    0 < blockCount options metainfo piece := by
  rw [lt_blockCount, Nat.zero_mul]
  exact getBittorrentPieceLength_positive metainfo piece

theorem addPiece_splitRequests (options : BittorrentOptions) (metainfo : BittorrentMeta)
    (piece : Nat) :
    pieceRequests piece (min options.requestLength (getBittorrentPieceLength metainfo piece))
        (getBittorrentPieceLength metainfo piece) (getBittorrentPieceLength metainfo piece) 0 0 =
      (List.range (blockCount options metainfo piece)).map (splitRequest options metainfo piece) :=
  pieceRequests_eq_splitBlocks (blockLength_positive options metainfo piece) (Nat.min_le_right _ _)
    (Nat.lt_of_lt_of_le (getBittorrentPieceLength_lt metainfo piece) (by decide)) piece

theorem addPiece_requests (piece : Nat) (few : blockCount options metainfo piece < 2 ^ 16) :
    pieceRequests piece (min options.requestLength (getBittorrentPieceLength metainfo piece))
        (getBittorrentPieceLength metainfo piece) (getBittorrentPieceLength metainfo piece) 0 0 =
      (List.range (blockCount options metainfo piece)).map (blockRequest options metainfo piece) := by
  rw [addPiece_splitRequests]
  refine List.map_congr_left fun block member => ?_
  have inside := List.mem_range.mp member
  rw [splitRequest, Nat.mod_eq_of_lt (by omega)]
  rfl

theorem blockRequest_range (options : BittorrentOptions) (metainfo : BittorrentMeta)
    (piece block : Nat) :
    requestRange (blockRequest options metainfo piece block) =
      blockRange options metainfo piece block := rfl

variable {cache after : BittorrentPieceCache}

theorem openBlocks_congr (same : ∀ piece, (after.entry piece).blocks = (cache.entry piece).blocks) :
    openBlocks options metainfo after = openBlocks options metainfo cache := by
  funext range
  simp only [openBlocks, same]

theorem openBlocks_map
    (same : after.entries.map (fun entry => entry.blocks) =
      cache.entries.map fun entry => entry.blocks) :
    openBlocks options metainfo after = openBlocks options metainfo cache :=
  openBlocks_congr (BittorrentPieceCache.entry_of_map (fun entry => entry.blocks) same)

theorem openBlocks_inj {first second : BlockRange}
    (opened : first ∈ openBlocks options metainfo cache)
    (other : second ∈ openBlocks options metainfo cache) (piece : first.piece = second.piece)
    (offset : first.offset = second.offset) : first = second := by
  obtain ⟨_, block, _, _, _, _, rfl⟩ := opened
  obtain ⟨_, otherBlock, _, _, _, _, rfl⟩ := other
  simp only [blockRange] at piece offset
  subst piece
  rw [Nat.eq_of_mul_eq_mul_right (blockLength_positive options metainfo _) offset]

theorem isRequestFor_iff_range {first second : BittorrentPeerRequest}
    (opened : requestRange first ∈ openBlocks options metainfo cache)
    (other : requestRange second ∈ openBlocks options metainfo cache) :
    isRequestFor first.piece first.offset first.length second = true ↔
      requestRange second = requestRange first := by
  rw [isRequestFor_iff]
  constructor
  · rintro ⟨piece, offset, length⟩
    exact openBlocks_inj other opened piece offset
  · intro same
    simp only [requestRange, BlockRange.mk.injEq] at same
    exact ⟨same.1, same.2.1, same.2.2.1⟩

section Peer

variable {request : BittorrentPeerRequest} {requests : List BittorrentPeerRequest}
  {matched : BittorrentPeerRequest → Bool}

def MatchesRange (matched : BittorrentPeerRequest → Bool) (request : BittorrentPeerRequest)
    (requests : List BittorrentPeerRequest) : Prop :=
  ∀ other ∈ requests, matched other = decide (requestRange other = requestRange request)

theorem matchesRange_isRequestFor (opened : requestRange request ∈ openBlocks options metainfo cache)
    (all : ∀ other ∈ requests, requestRange other ∈ openBlocks options metainfo cache) :
    MatchesRange (isRequestFor request.piece request.offset request.length) request requests := by
  intro other member
  rw [Bool.eq_iff_iff, decide_eq_true_eq]
  exact isRequestFor_iff_range opened (all other member)

theorem MatchesRange.any (finds : MatchesRange matched request requests) :
    requests.any matched = holds (requestRange request) (requests.map requestJob) := by
  rw [holds, List.any_map]
  induction requests with
  | nil => rfl
  | cons first rest ih =>
      unfold MatchesRange at finds
      rw [List.forall_mem_cons] at finds
      rw [List.any_cons, List.any_cons, finds.1, ih finds.2]
      rfl

theorem requestJob_keys (requests : List BittorrentPeerRequest) :
    (requests.map requestJob).map Job.key = requests.map requestRange := List.map_map

theorem not_holds_of_nodup {first : BittorrentPeerRequest}
    (nodup : ((first :: requests).map requestRange).Nodup) :
    holds (requestRange first) (requests.map requestJob) = false := by
  rw [List.map_cons, List.nodup_cons] at nodup
  rw [holds_eq_false_iff, requestJob_keys]
  exact nodup.1

theorem MatchesRange.clearFirst (finds : MatchesRange matched request requests)
    (nodup : (requests.map requestRange).Nodup) :
    (clearFirst matched requests).map requestJob =
      mark (requestRange request) false (requests.map requestJob) := by
  induction requests with
  | nil => rfl
  | cons first rest ih =>
      have missing := not_holds_of_nodup nodup
      unfold MatchesRange at finds
      rw [List.forall_mem_cons] at finds
      rw [List.map_cons, List.nodup_cons] at nodup
      simp only [Bittorrent.clearFirst, finds.1, decide_eq_true_eq]
      rw [List.map_cons, mark_cons]
      by_cases same : requestRange first = requestRange request
      · rw [if_pos same, if_pos (show (requestJob first).key = requestRange request from same),
          ← same, mark_of_not_holds false missing]
        rfl
      · rw [if_neg same, if_neg (show ¬(requestJob first).key = requestRange request from same),
          List.map_cons, ih finds.2 nodup.2]

theorem MatchesRange.eraseP (finds : MatchesRange matched request requests)
    (nodup : (requests.map requestRange).Nodup) :
    (requests.eraseP matched).map requestJob =
      finish (requestRange request) (requests.map requestJob) := by
  induction requests with
  | nil => rfl
  | cons first rest ih =>
      have missing := not_holds_of_nodup nodup
      unfold MatchesRange at finds
      rw [List.forall_mem_cons] at finds
      rw [List.map_cons, List.nodup_cons] at nodup
      rw [List.map_cons, finish_cons]
      by_cases same : requestRange first = requestRange request
      · rw [if_pos (show (requestJob first).key = requestRange request from same), ← same,
          finish_of_not_holds missing, List.eraseP_cons_of_pos (by rw [finds.1, same]; simp)]
      · rw [if_neg (show ¬(requestJob first).key = requestRange request from same),
          List.eraseP_cons_of_neg (by rw [finds.1]; simpa using same), List.map_cons,
          ih finds.2 nodup.2]

end Peer

end KcnTools.Bittorrent
