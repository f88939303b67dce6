import Mathlib.Data.List.Induction
import KcnTools.Bittorrent.Common

/-!
The handshake of a peer connection (`peerwire.c`), checked again each time more bytes of it
have arrived, and the look-up of the torrent that an incoming peer asks for.
-/

namespace KcnTools.Bittorrent

def bittorrentId : List UInt8 :=
  [19, 66, 105, 116, 84, 111, 114, 114, 101, 110, 116, 32, 112, 114, 111, 116, 111, 99, 111, 108]

def bittorrentPeerHandshakeSize : Nat := 1 + 19 + 8 + 20 + 20

def idAt (buffer : List UInt8) (offset : Nat) : List UInt8 := (buffer.drop offset).take 20

inductive HandshakeState
  | ok | infoHash | incomplete | error
  deriving DecidableEq

def HandshakeState.isFinal (state : HandshakeState) : Bool := state = .ok || state = .error

structure TorrentIdentity where
  infoHash : List UInt8
  peerId : List UInt8

/-- The active torrents in order, with the numbers and IDs of their connected peers and the
IDs of the peers they know of; and which IDs are on the blacklist. -/
structure PeerLists where
  active : List Nat
  peers : Nat → List (Nat × List UInt8)
  pool : Nat → List (List UInt8)
  blacklisted : List UInt8 → Bool

structure HandshakePeer where
  number : Nat
  initiater : Bool
  localHandshake : Bool
  remoteHandshake : Bool
  torrent : Option Nat
  id : List UInt8
  attached : initiater = true → torrent.isSome = true

def incomingPeer (number : Nat) : HandshakePeer where
  number := number
  initiater := false
  localHandshake := false
  remoteHandshake := false
  torrent := none
  id := bittorrentNullId
  attached := by decide

def outgoingPeer (number torrent : Nat) (id : List UInt8) : HandshakePeer where
  number := number
  initiater := true
  localHandshake := true
  remoteHandshake := false
  torrent := some torrent
  id := id
  attached _ := rfl

def findBittorrentConnection (pointerSize : Nat) (identity : Nat → TorrentIdentity)
    (active : List Nat) (infoHash : List UInt8) : Option Nat :=
  active.find? fun torrent => (identity torrent).infoHash.take pointerSize = infoHash.take pointerSize

def bittorrentIdIsKnown (identity : TorrentIdentity) (peers : List (Nat × List UInt8))
    (pool : List (List UInt8)) (id : List UInt8) : Bool :=
  identity.peerId = id || (peers.any fun peer => peer.2 = id) || pool.any fun known => known = id

/-- The end of the check: the peer leaves the pool and joins the peers of its torrent. -/
def joinTorrent (identity : Nat → TorrentIdentity) (lists : PeerLists) (peer : HandshakePeer)
    (torrent : Nat) : HandshakeState × HandshakePeer × PeerLists :=
  let pool := (lists.pool torrent).eraseP fun known => known = peer.id
  let others := (lists.peers torrent).filter fun other => other.1 != peer.number
  (if bittorrentIdIsKnown (identity torrent) others pool peer.id then .error else .ok, peer,
    { lists with
      pool := fun other => if other = torrent then pool else lists.pool other
      peers := fun other =>
        if other = torrent then (peer.number, peer.id) :: others else lists.peers other })

def checkBittorrentPeerHandshake (pointerSize : Nat) (identity : Nat → TorrentIdentity)
    (lists : PeerLists) (peer : HandshakePeer) (buffer : List UInt8) :
    HandshakeState × HandshakePeer × PeerLists :=
  if buffer.length < 20 then (.incomplete, peer, lists)
  else if buffer.take 20 ≠ bittorrentId then (.error, peer, lists)
  else if buffer.length < 28 then (.incomplete, peer, lists)
  else if buffer.length < 48 then (.incomplete, peer, lists)
  else
    let infoHash := idAt buffer 28
    if outgoing : peer.initiater = true then
      let torrent := peer.torrent.get (peer.attached outgoing)
      if (identity torrent).infoHash ≠ infoHash then (.error, peer, lists)
      else if buffer.length < bittorrentPeerHandshakeSize then (.infoHash, peer, lists)
      else if bittorrentIdIsEmpty peer.id then
        joinTorrent identity lists { peer with id := idAt buffer 48 } torrent
      else if peer.id ≠ idAt buffer 48 then (.error, peer, lists)
      else joinTorrent identity lists peer torrent
    else
      match peer.torrent <|> findBittorrentConnection pointerSize identity lists.active infoHash with
      | none => (.error, peer, lists)
      | some torrent =>
          let attached := { peer with torrent := some torrent, attached := fun _ => rfl }
          if buffer.length < bittorrentPeerHandshakeSize then (.infoHash, attached, lists)
          else joinTorrent identity lists { attached with id := idAt buffer 48 } torrent

/-- A handshake that is being read; `checked` is what the last check said. -/
structure HandshakeReading where
  peer : HandshakePeer
  buffer : List UInt8
  checked : HandshakeState
  lists : PeerLists

def doReadBittorrentPeerHandshake (pointerSize : Nat) (identity : Nat → TorrentIdentity)
    (lists : PeerLists) (peer : HandshakePeer) (buffer : List UInt8) : HandshakeReading :=
  let checked := checkBittorrentPeerHandshake pointerSize identity lists peer buffer
  let peer := checked.2.1
  match checked.1 with
  | .ok =>
      { peer := { peer with
          remoteHandshake := true
          localHandshake := peer.localHandshake || !lists.blacklisted peer.id }
        buffer := buffer.drop bittorrentPeerHandshakeSize
        checked := .ok
        lists := checked.2.2 }
  | .infoHash => ⟨{ peer with localHandshake := true }, buffer, .infoHash, checked.2.2⟩
  | state => ⟨peer, buffer, state, checked.2.2⟩

/-- The bytes of a read join the buffer, until the handshake has been accepted or refused. -/
def readHandshake (pointerSize : Nat) (identity : Nat → TorrentIdentity) (reading : HandshakeReading)
    (read : PeerLists × List UInt8) : HandshakeReading :=
  if reading.checked.isFinal then reading
  else doReadBittorrentPeerHandshake pointerSize identity read.1 reading.peer
    (reading.buffer ++ read.2)

def startHandshake (peer : HandshakePeer) : HandshakeReading :=
  ⟨peer, [], .incomplete, ⟨[], fun _ => [], fun _ => [], fun _ => false⟩⟩

def readHandshakes (pointerSize : Nat) (identity : Nat → TorrentIdentity) (peer : HandshakePeer)
    (reads : List (PeerLists × List UInt8)) : HandshakeReading :=
  reads.foldl (readHandshake pointerSize identity) (startHandshake peer)

def bytesRead (reads : List (PeerLists × List UInt8)) : List UInt8 := reads.flatMap Prod.snd

variable {pointerSize : Nat} {identity : Nat → TorrentIdentity} {lists after : PeerLists}
  {peer joined : HandshakePeer} {buffer : List UInt8} {torrent : Nat}

/-- The peer joined the torrent without being one of its peers, or this client. -/
structure Joins (identity : Nat → TorrentIdentity) (peer : HandshakePeer) (torrent : Nat)
    (after : PeerLists) : Prop where
  own : peer.id ≠ (identity torrent).peerId
  others : ∀ other ∈ after.peers torrent, other.1 ≠ peer.number → other.2 ≠ peer.id

theorem joinTorrent_ok (accepted : joinTorrent identity lists peer torrent = (.ok, joined, after)) :
    joined = peer ∧ Joins identity peer torrent after := by
  simp only [joinTorrent, Prod.mk.injEq, ite_eq_right_iff, reduceCtorEq, imp_false] at accepted
  obtain ⟨unknown, rfl, rfl⟩ := accepted
  simp only [bittorrentIdIsKnown, Bool.or_eq_true, decide_eq_true_eq, List.any_eq_true, not_or,
    not_exists, not_and] at unknown
  refine ⟨rfl, Ne.symm unknown.1.1, fun other member different => ?_⟩
  simp only [if_true, List.mem_cons] at member
  rcases member with same | member
  · exact absurd (congrArg Prod.fst same) different
  · exact unknown.1.2 other member

structure Accepts (pointerSize : Nat) (identity : Nat → TorrentIdentity) (lists : PeerLists)
    (peer : HandshakePeer) (buffer : List UInt8) (joined : HandshakePeer) (torrent : Nat) : Prop where
  long : bittorrentPeerHandshakeSize ≤ buffer.length
  protocol : buffer.take 20 = bittorrentId
  id : joined.id = idAt buffer 48
  attached : joined.torrent = some torrent
  outgoing : peer.initiater = true → peer.torrent = some torrent ∧
    (identity torrent).infoHash = idAt buffer 28 ∧
      (bittorrentIdIsEmpty peer.id = false → joined.id = peer.id)
  incoming : peer.initiater = false → (peer.torrent <|>
    findBittorrentConnection pointerSize identity lists.active (idAt buffer 28)) = some torrent

theorem check_ok
    (accepted : checkBittorrentPeerHandshake pointerSize identity lists peer buffer =
      (.ok, joined, after)) :
    ∃ torrent, Accepts pointerSize identity lists peer buffer joined torrent ∧
      Joins identity joined torrent after := by
  simp only [checkBittorrentPeerHandshake] at accepted
  split at accepted
  · simp at accepted
  split at accepted
  · simp at accepted
  rename_i protocol
  split at accepted
  · simp at accepted
  split at accepted
  · simp at accepted
  split at accepted
  · rename_i outgoing
    split at accepted
    · simp at accepted
    rename_i hash
    split at accepted
    · simp at accepted
    rename_i long
    have kept : peer.torrent = some (peer.torrent.get (peer.attached outgoing)) :=
      (Option.some_get _).symm
    split at accepted
    · rename_i empty
      obtain ⟨rfl, joins⟩ := joinTorrent_ok accepted
      refine ⟨_, ⟨Nat.le_of_not_lt long, Decidable.not_not.mp protocol, rfl, kept, fun _ => ?_,
        fun incoming => ?_⟩, joins⟩
      · exact ⟨kept, Decidable.not_not.mp hash, fun known => by rw [empty] at known; simp at known⟩
      · rw [outgoing] at incoming
        simp at incoming
    · split at accepted
      · simp at accepted
      rename_i same
      obtain ⟨rfl, joins⟩ := joinTorrent_ok accepted
      refine ⟨_, ⟨Nat.le_of_not_lt long, Decidable.not_not.mp protocol, Decidable.not_not.mp same, kept,
        fun _ => ⟨kept, Decidable.not_not.mp hash, fun _ => rfl⟩, fun incoming => ?_⟩, joins⟩
      rw [outgoing] at incoming
      simp at incoming
  · rename_i incoming
    split at accepted
    · simp at accepted
    rename_i torrent found
    split at accepted
    · simp at accepted
    rename_i long
    obtain ⟨rfl, joins⟩ := joinTorrent_ok accepted
    exact ⟨torrent, ⟨Nat.le_of_not_lt long, Decidable.not_not.mp protocol, rfl, rfl,
      fun outgoing => absurd outgoing incoming, fun _ => found⟩, joins⟩

structure Waits (pointerSize : Nat) (identity : Nat → TorrentIdentity) (lists : PeerLists)
    (peer : HandshakePeer) (buffer : List UInt8) (waiting : HandshakePeer) : Prop where
  short : buffer.length < bittorrentPeerHandshakeSize
  number : waiting.number = peer.number
  initiater : waiting.initiater = peer.initiater
  id : waiting.id = peer.id
  outgoing : peer.initiater = true → waiting.torrent = peer.torrent
  incoming : peer.initiater = false → waiting.torrent =
    if buffer.length < 48 then peer.torrent else (peer.torrent <|>
      findBittorrentConnection pointerSize identity lists.active (idAt buffer 28))
  found : 48 ≤ buffer.length → waiting.torrent.isSome = true

theorem joinTorrent_isFinal (identity : Nat → TorrentIdentity) (lists : PeerLists)
    (peer : HandshakePeer) (torrent : Nat) :
    (joinTorrent identity lists peer torrent).1.isFinal = true := by
  simp only [joinTorrent]
  split <;> rfl

theorem check_waits {state : HandshakeState}
    (checked : checkBittorrentPeerHandshake pointerSize identity lists peer buffer =
      (state, joined, after)) (waiting : state.isFinal = false) :
    Waits pointerSize identity lists peer buffer joined := by
  have joins := joinTorrent_isFinal identity lists
  have early : ∀ {bound : Nat}, buffer.length < bound → bound ≤ 48 →
      (state, joined, after) = (.incomplete, peer, lists) →
        Waits pointerSize identity lists peer buffer joined := by
    intro bound short small same
    obtain ⟨-, rfl, -⟩ : state = .incomplete ∧ joined = peer ∧ after = lists := by simpa using same
    have below : buffer.length < 48 := by omega
    exact ⟨Nat.lt_trans below (by decide), rfl, rfl, rfl, fun _ => rfl, fun _ => by rw [if_pos below],
      fun hashed => by omega⟩
  have refused : (state, joined, after) ≠ (.error, peer, lists) := by
    intro same
    rw [(Prod.mk.inj same).1] at waiting
    simp [HandshakeState.isFinal] at waiting
  have joinless : ∀ peer torrent, (state, joined, after) ≠ joinTorrent identity lists peer torrent := by
    intro peer torrent same
    have final := joins peer torrent
    rw [← same, waiting] at final
    simp at final
  simp only [checkBittorrentPeerHandshake] at checked
  split at checked
  · rename_i short
    exact early short (by decide) checked.symm
  split at checked
  · exact absurd checked.symm refused
  split at checked
  · rename_i short
    exact early short (by decide) checked.symm
  split at checked
  · rename_i short
    exact early short (Nat.le_refl _) checked.symm
  rename_i hashed
  split at checked
  · rename_i outgoing
    split at checked
    · exact absurd checked.symm refused
    split at checked
    · rename_i short
      obtain ⟨-, rfl, -⟩ : state = .infoHash ∧ joined = peer ∧ after = lists := by
        simpa using checked.symm
      refine ⟨short, rfl, rfl, rfl, fun _ => rfl, fun incoming => ?_, fun _ =>
        joined.attached outgoing⟩
      rw [outgoing] at incoming
      simp at incoming
    split at checked
    · exact absurd checked.symm (joinless _ _)
    split at checked
    · exact absurd checked.symm refused
    · exact absurd checked.symm (joinless _ _)
  · rename_i incoming
    split at checked
    · exact absurd checked.symm refused
    rename_i torrent found
    split at checked
    · rename_i short
      obtain ⟨-, rfl, -⟩ : state = .infoHash ∧ joined =
          { peer with torrent := some torrent, attached := fun _ => rfl } ∧ after = lists := by
        simpa using checked.symm
      refine ⟨short, rfl, rfl, rfl, fun outgoing => absurd outgoing incoming, fun _ => ?_,
        fun _ => rfl⟩
      rw [if_neg hashed]
      exact found.symm
    · exact absurd checked.symm (joinless _ _)

theorem idAt_append {offset : Nat} (inside : offset + 20 ≤ buffer.length) (more : List UInt8) :
    idAt (buffer ++ more) offset = idAt buffer offset := by
  rw [idAt, idAt, List.drop_append_of_le_length (by omega), List.take_append_of_le_length]
  rw [List.length_drop]
  omega

/-- The verdict does not look at the flags of a peer, and only at one of its torrents. -/
theorem check_congr {other : HandshakePeer} (number : other.number = peer.number)
    (initiater : other.initiater = peer.initiater) (id : other.id = peer.id)
    (outgoing : peer.initiater = true → other.torrent = peer.torrent)
    (incoming : peer.initiater = false → 48 ≤ buffer.length →
      (other.torrent <|> findBittorrentConnection pointerSize identity lists.active (idAt buffer 28)) =
        (peer.torrent <|>
          findBittorrentConnection pointerSize identity lists.active (idAt buffer 28))) :
    (checkBittorrentPeerHandshake pointerSize identity lists other buffer).1 =
      (checkBittorrentPeerHandshake pointerSize identity lists peer buffer).1 := by
  obtain ⟨_, _, _, _, _, _, _⟩ := peer
  obtain ⟨_, started, _, _, _, _, _⟩ := other
  simp only at number initiater id outgoing incoming
  subst number initiater id
  simp only [checkBittorrentPeerHandshake]
  by_cases short : buffer.length < 20
  · rw [if_pos short, if_pos short]
  rw [if_neg short, if_neg short]
  by_cases foreign : buffer.take 20 ≠ bittorrentId
  · rw [if_pos foreign, if_pos foreign]
  rw [if_neg foreign, if_neg foreign]
  by_cases reserved : buffer.length < 28
  · rw [if_pos reserved, if_pos reserved]
  rw [if_neg reserved, if_neg reserved]
  by_cases unhashed : buffer.length < 48
  · rw [if_pos unhashed, if_pos unhashed]
  rw [if_neg unhashed, if_neg unhashed]
  cases started with
  | true =>
      obtain rfl := outgoing rfl
      simp only [dite_true, joinTorrent, apply_ite Prod.fst]
  | false =>
      have found := incoming rfl (Nat.le_of_not_lt unhashed)
      simp only [Bool.false_eq_true, dite_false]
      rw [found]
      split
      · rfl
      · simp only [joinTorrent, apply_ite Prod.fst]

/-- A handshake that was accepted or refused stays so, whatever arrives after it. -/
theorem check_append
    (final : (checkBittorrentPeerHandshake pointerSize identity lists peer buffer).1.isFinal = true)
    (more : List UInt8) :
    (checkBittorrentPeerHandshake pointerSize identity lists peer (buffer ++ more)).1 =
      (checkBittorrentPeerHandshake pointerSize identity lists peer buffer).1 := by
  have grows : ∀ {bound : Nat}, ¬buffer.length < bound → ¬(buffer ++ more).length < bound := by
    intro bound long
    rw [List.length_append]
    omega
  simp only [checkBittorrentPeerHandshake] at final ⊢
  by_cases short : buffer.length < 20
  · rw [if_pos short] at final
    simp [HandshakeState.isFinal] at final
  rw [if_neg short] at final ⊢
  rw [if_neg (grows short), List.take_append_of_le_length (Nat.le_of_not_lt short)]
  by_cases foreign : buffer.take 20 ≠ bittorrentId
  · rw [if_pos foreign, if_pos foreign]
  rw [if_neg foreign] at final ⊢
  rw [if_neg foreign]
  by_cases reserved : buffer.length < 28
  · rw [if_pos reserved] at final
    simp [HandshakeState.isFinal] at final
  rw [if_neg reserved] at final ⊢
  rw [if_neg (grows reserved)]
  by_cases unhashed : buffer.length < 48
  · rw [if_pos unhashed] at final
    simp [HandshakeState.isFinal] at final
  rw [if_neg unhashed] at final ⊢
  rw [if_neg (grows unhashed), idAt_append (by omega) more]
  by_cases short : buffer.length < bittorrentPeerHandshakeSize
  · simp only [if_pos short] at final ⊢
    split at final
    · rename_i outgoing
      split at final
      · rename_i different
        rw [dif_pos outgoing, dif_pos outgoing, if_pos different, if_pos different]
      · simp [HandshakeState.isFinal] at final
    · rename_i incoming
      rw [dif_neg incoming, dif_neg incoming]
      split at final
      · rfl
      · simp [HandshakeState.isFinal] at final
  · have long : 68 ≤ buffer.length := Nat.le_of_not_lt short
    simp only [if_neg short, if_neg (grows short), idAt_append (show 48 + 20 ≤ _ from long) more]

structure SamePeer (other peer : HandshakePeer) : Prop where
  number : other.number = peer.number
  initiater : other.initiater = peer.initiater
  id : other.id = peer.id
  torrent : other.torrent = peer.torrent

structure ReadStep (pointerSize : Nat) (identity : Nat → TorrentIdentity) (lists : PeerLists)
    (peer : HandshakePeer) (buffer : List UInt8) (reading : HandshakeReading) : Prop where
  checked : reading.checked =
    (checkBittorrentPeerHandshake pointerSize identity lists peer buffer).1
  after : reading.lists = (checkBittorrentPeerHandshake pointerSize identity lists peer buffer).2.2
  peer : SamePeer reading.peer
    (checkBittorrentPeerHandshake pointerSize identity lists peer buffer).2.1
  buffer : reading.checked.isFinal = false → reading.buffer = buffer

theorem doRead_step (pointerSize : Nat) (identity : Nat → TorrentIdentity) (lists : PeerLists)
    (peer : HandshakePeer) (buffer : List UInt8) :
    ReadStep pointerSize identity lists peer buffer
      (doReadBittorrentPeerHandshake pointerSize identity lists peer buffer) := by
  generalize outcome : checkBittorrentPeerHandshake pointerSize identity lists peer buffer = checked
  obtain ⟨state, joined, after⟩ := checked
  constructor <;> simp only [doReadBittorrentPeerHandshake, outcome]
  · cases state <;> rfl
  · cases state <;> rfl
  · cases state <;> exact ⟨rfl, rfl, rfl, rfl⟩
  · cases state with
    | ok => simp [HandshakeState.isFinal]
    | infoHash | incomplete | error => exact fun _ => rfl

theorem readHandshakes_concat (peer : HandshakePeer) (reads : List (PeerLists × List UInt8))
    (read : PeerLists × List UInt8) :
    readHandshakes pointerSize identity peer (reads ++ [read]) =
      readHandshake pointerSize identity (readHandshakes pointerSize identity peer reads) read := by
  rw [readHandshakes, List.foldl_append]
  rfl

theorem bytesRead_concat (reads : List (PeerLists × List UInt8)) (read : PeerLists × List UInt8) :
    bytesRead (reads ++ [read]) = bytesRead reads ++ read.2 := by
  simp [bytesRead]

/-- The torrent that is looked up by the first read after which the info hash is complete. -/
def lookedUp (pointerSize : Nat) (identity : Nat → TorrentIdentity) :
    List UInt8 → List (PeerLists × List UInt8) → Option Nat
  | _, [] => none
  | before, read :: reads =>
      if 48 ≤ (before ++ read.2).length then
        findBittorrentConnection pointerSize identity read.1.active (idAt (before ++ read.2) 28)
      else lookedUp pointerSize identity (before ++ read.2) reads

theorem lookedUp_concat {before : List UInt8} (short : before.length < 48)
    (reads : List (PeerLists × List UInt8)) (read : PeerLists × List UInt8) :
    lookedUp pointerSize identity before (reads ++ [read]) =
      if 48 ≤ (before ++ bytesRead reads).length then lookedUp pointerSize identity before reads
      else if 48 ≤ (before ++ bytesRead reads ++ read.2).length then
        findBittorrentConnection pointerSize identity read.1.active
          (idAt (before ++ bytesRead reads ++ read.2) 28)
      else none := by
  induction reads generalizing before with
  | nil =>
      rw [bytesRead, List.flatMap_nil, List.append_nil, if_neg (by omega)]
      rfl
  | cons first reads ih =>
      have bytes : before ++ bytesRead (first :: reads) = before ++ first.2 ++ bytesRead reads := by
        simp [bytesRead]
      rw [bytes, List.cons_append, lookedUp, lookedUp]
      split
      · rename_i hashed
        rw [if_pos (by rw [List.length_append]; omega)]
      · rename_i unhashed
        exact ih (Nat.lt_of_not_le unhashed)

theorem lookedUp_short {before : List UInt8} {reads : List (PeerLists × List UInt8)}
    (short : (before ++ bytesRead reads).length < 48) :
    lookedUp pointerSize identity before reads = none := by
  induction reads generalizing before with
  | nil => rfl
  | cons first reads ih =>
      have bytes : before ++ bytesRead (first :: reads) = before ++ first.2 ++ bytesRead reads := by
        simp [bytesRead]
      rw [bytes] at short
      have early : ¬48 ≤ (before ++ first.2).length := by
        rw [List.length_append] at short
        omega
      rw [lookedUp, if_neg early]
      exact ih short

/-- Connections are accepted from a peer, or made to a peer of a torrent. -/
inductive StartsHandshake : HandshakePeer → Prop
  | incoming (number : Nat) : StartsHandshake (incomingPeer number)
  | outgoing (number torrent : Nat) (id : List UInt8) :
      StartsHandshake (outgoingPeer number torrent id)

structure Unfinished (pointerSize : Nat) (identity : Nat → TorrentIdentity) (start : HandshakePeer)
    (reads : List (PeerLists × List UInt8)) (reading : HandshakeReading) : Prop where
  buffer : reading.buffer = bytesRead reads
  number : reading.peer.number = start.number
  initiater : reading.peer.initiater = start.initiater
  id : reading.peer.id = start.id
  outgoing : start.initiater = true → reading.peer.torrent = start.torrent
  incoming : start.initiater = false →
    reading.peer.torrent = lookedUp pointerSize identity [] reads
  found : 48 ≤ (bytesRead reads).length → reading.peer.torrent.isSome = true

/-- What is known of a handshake that was accepted, but for the whole info hash of a torrent
that was looked up. -/
structure Accepted (pointerSize : Nat) (identity : Nat → TorrentIdentity) (start : HandshakePeer)
    (reads : List (PeerLists × List UInt8)) (reading : HandshakeReading) (torrent : Nat) : Prop where
  long : bittorrentPeerHandshakeSize ≤ (bytesRead reads).length
  protocol : (bytesRead reads).take 20 = bittorrentId
  id : reading.peer.id = idAt (bytesRead reads) 48
  attached : reading.peer.torrent = some torrent
  outgoing : start.initiater = true → (identity torrent).infoHash = idAt (bytesRead reads) 28 ∧
    (bittorrentIdIsEmpty start.id = false → reading.peer.id = start.id)
  incoming : start.initiater = false → lookedUp pointerSize identity [] reads = some torrent
  joins : Joins identity reading.peer torrent reading.lists

variable {start : HandshakePeer} {reads : List (PeerLists × List UInt8)}
  {reading : HandshakeReading} {read : PeerLists × List UInt8}

theorem bytesRead_long {bound : Nat} (long : bound ≤ (bytesRead reads).length) :
    bound ≤ (bytesRead (reads ++ [read])).length := by
  rw [bytesRead_concat, List.length_append]
  omega

/-- The look-up of a torrent that an unfinished handshake has made or is about to make. -/
theorem Unfinished.lookedUp (unfinished : Unfinished pointerSize identity start reads reading)
    (incoming : start.initiater = false) (hashed : 48 ≤ (bytesRead (reads ++ [read])).length) :
    lookedUp pointerSize identity [] (reads ++ [read]) = (reading.peer.torrent <|>
      findBittorrentConnection pointerSize identity read.1.active
        (idAt (bytesRead (reads ++ [read])) 28)) := by
  rw [unfinished.incoming incoming, lookedUp_concat (by decide), List.nil_append]
  rw [bytesRead_concat] at hashed ⊢
  split
  · rename_i before
    have found := unfinished.found before
    rw [unfinished.incoming incoming] at found
    obtain ⟨torrent, same⟩ := Option.isSome_iff_exists.mp found
    rw [same]
    rfl
  · rename_i before
    rw [@lookedUp_short _ _ [] reads (by rw [List.nil_append]; omega)]
    rfl

theorem Accepted.more (accepted : Accepted pointerSize identity start reads reading torrent) :
    Accepted pointerSize identity start (reads ++ [read]) reading torrent := by
  have long : 68 ≤ (bytesRead reads).length := accepted.long
  have first := idAt_append (show 28 + 20 ≤ (bytesRead reads).length by omega) read.2
  have second := idAt_append (show 48 + 20 ≤ (bytesRead reads).length from long) read.2
  refine {
    long := bytesRead_long accepted.long
    protocol := ?_
    id := ?_
    attached := accepted.attached
    outgoing := ?_
    incoming := fun incoming => ?_
    joins := accepted.joins }
  · rw [bytesRead_concat, List.take_append_of_le_length (by omega)]
    exact accepted.protocol
  · rw [bytesRead_concat, second]
    exact accepted.id
  · rw [bytesRead_concat, first]
    exact accepted.outgoing
  · rw [lookedUp_concat (by decide), if_pos (by rw [List.nil_append]; omega)]
    exact accepted.incoming incoming

theorem Unfinished.initial (started : StartsHandshake start) :
    Unfinished pointerSize identity start [] (startHandshake start) := by
  refine ⟨rfl, rfl, rfl, rfl, fun _ => rfl, fun incoming => ?_, fun hashed => ?_⟩
  · cases started with
    | incoming => rfl
    | outgoing => simp [outgoingPeer] at incoming
  · simp [bytesRead] at hashed

theorem Unfinished.step (unfinished : Unfinished pointerSize identity start reads reading)
    {next : HandshakeReading} (step : ReadStep pointerSize identity read.1 reading.peer
      (bytesRead (reads ++ [read])) next) :
    (next.checked.isFinal = false → Unfinished pointerSize identity start (reads ++ [read]) next) ∧
      (next.checked = .ok →
        ∃ torrent, Accepted pointerSize identity start (reads ++ [read]) next torrent) := by
  obtain ⟨checked, left, same, buffer⟩ := step
  generalize outcome : checkBittorrentPeerHandshake pointerSize identity read.1 reading.peer
    (bytesRead (reads ++ [read])) = result at checked left same
  obtain ⟨state, joined, after⟩ := result
  simp only at checked left same
  subst checked
  refine ⟨fun unready => ?_, fun accepted => ?_⟩
  · have waits := check_waits outcome unready
    refine {
      buffer := buffer unready
      number := same.number.trans (waits.number.trans unfinished.number)
      initiater := same.initiater.trans (waits.initiater.trans unfinished.initiater)
      id := same.id.trans (waits.id.trans unfinished.id)
      outgoing := fun outgoing => same.torrent.trans
        ((waits.outgoing (unfinished.initiater.trans outgoing)).trans (unfinished.outgoing outgoing))
      incoming := fun incoming => ?_
      found := fun hashed => by rw [same.torrent]; exact waits.found hashed }
    rw [same.torrent, waits.incoming (unfinished.initiater.trans incoming)]
    split
    · rename_i short
      have before : (bytesRead reads).length < 48 := by
        rw [bytesRead_concat, List.length_append] at short
        omega
      rw [unfinished.incoming incoming, lookedUp_short (by rwa [List.nil_append]),
        lookedUp_short (by rwa [List.nil_append])]
    · rename_i hashed
      exact (unfinished.lookedUp incoming (Nat.le_of_not_lt hashed)).symm
  · rw [accepted] at outcome
    obtain ⟨torrent, accepts, joins⟩ := check_ok outcome
    have hashed : 48 ≤ (bytesRead (reads ++ [read])).length :=
      Nat.le_trans (by decide) accepts.long
    refine ⟨torrent, {
      long := accepts.long
      protocol := accepts.protocol
      id := same.id.trans accepts.id
      attached := same.torrent.trans accepts.attached
      outgoing := fun outgoing => ?_
      incoming := fun incoming => ?_
      joins := ?_ }⟩
    · obtain ⟨_, hash, expected⟩ := accepts.outgoing (unfinished.initiater.trans outgoing)
      rw [unfinished.id] at expected
      exact ⟨hash, fun known => same.id.trans (expected known)⟩
    · rw [unfinished.lookedUp incoming hashed]
      exact accepts.incoming (unfinished.initiater.trans incoming)
    · rw [left]
      refine ⟨?_, ?_⟩
      · rw [same.id]
        exact joins.own
      · rw [same.id, same.number]
        exact joins.others

/-- Every run of reads either waits for more bytes, or has found what it needs to accept. -/
theorem readHandshakes_spec (started : StartsHandshake start)
    (reads : List (PeerLists × List UInt8)) :
    ((readHandshakes pointerSize identity start reads).checked.isFinal = false →
        Unfinished pointerSize identity start reads
          (readHandshakes pointerSize identity start reads)) ∧
      ((readHandshakes pointerSize identity start reads).checked = .ok →
        ∃ torrent, Accepted pointerSize identity start reads
          (readHandshakes pointerSize identity start reads) torrent) := by
  induction reads using List.reverseRecOn with
  | nil =>
      refine ⟨fun _ => Unfinished.initial started, fun accepted => ?_⟩
      simp [readHandshakes, startHandshake] at accepted
  | append_singleton reads read ih =>
      rw [readHandshakes_concat, readHandshake]
      split
      · rename_i final
        refine ⟨fun unready => ?_, fun accepted => ?_⟩
        · rw [final] at unready
          simp at unready
        · obtain ⟨torrent, known⟩ := ih.2 accepted
          exact ⟨torrent, known.more⟩
      · rename_i unready
        have unfinished := ih.1 (by simpa using unready)
        have step := doRead_step pointerSize identity read.1
          (readHandshakes pointerSize identity start reads).peer (bytesRead reads ++ read.2)
        rw [unfinished.buffer]
        rw [← bytesRead_concat] at step ⊢
        exact unfinished.step step

theorem lookedUp_const (lists : PeerLists) {before : List UInt8} (short : before.length < 48)
    (chunks : List (List UInt8)) :
    lookedUp pointerSize identity before (chunks.map fun chunk => (lists, chunk)) =
      if 48 ≤ (before ++ chunks.flatten).length then
        findBittorrentConnection pointerSize identity lists.active (idAt (before ++ chunks.flatten) 28)
      else none := by
  induction chunks generalizing before with
  | nil =>
      rw [List.flatten_nil, List.append_nil, if_neg (by omega)]
      rfl
  | cons chunk chunks ih =>
      rw [List.map_cons, lookedUp, List.flatten_cons, ← List.append_assoc]
      split
      · rename_i hashed
        change 48 ≤ (before ++ chunk).length at hashed
        rw [idAt_append (show 28 + 20 ≤ _ from hashed), if_pos (by rw [List.length_append]; omega)]
      · rename_i unhashed
        exact ih (Nat.lt_of_not_le unhashed)

theorem bytesRead_const (lists : PeerLists) (chunks : List (List UInt8)) :
    bytesRead (chunks.map fun chunk => (lists, chunk)) = chunks.flatten := by
  induction chunks with
  | nil => rfl
  | cons chunk chunks ih =>
      rw [List.map_cons, List.flatten_cons, ← ih]
      rfl

theorem readHandshakes_checked (started : StartsHandshake start) (lists : PeerLists)
    (chunks : List (List UInt8)) :
    (readHandshakes pointerSize identity start (chunks.map fun chunk => (lists, chunk))).checked =
      (checkBittorrentPeerHandshake pointerSize identity lists start chunks.flatten).1 := by
  induction chunks using List.reverseRecOn with
  | nil => rfl
  | append_singleton chunks chunk ih =>
      have joined := bytesRead_const lists (chunks ++ [chunk])
      have found := @lookedUp_const pointerSize identity lists [] (by decide) (chunks ++ [chunk])
      rw [List.nil_append] at found
      rw [List.map_append, List.map_singleton] at joined found ⊢
      rw [readHandshakes_concat, readHandshake, ← joined]
      rw [← joined] at found
      rw [← bytesRead_const lists] at ih
      generalize chunks.map (fun chunk => (lists, chunk)) = reads at *
      split
      · rename_i final
        rw [bytesRead_concat, ih]
        rw [ih] at final
        exact (check_append final chunk).symm
      · rename_i unready
        have unfinished := (readHandshakes_spec started reads).1 (by simpa using unready)
        rw [(doRead_step pointerSize identity lists _ _).checked, unfinished.buffer, bytesRead_concat]
        refine check_congr unfinished.number unfinished.initiater unfinished.id unfinished.outgoing
          fun incoming hashed => ?_
        have lookup := @Unfinished.lookedUp _ _ _ _ _ (lists, chunk) unfinished incoming
        rw [bytesRead_concat] at lookup found
        rw [← lookup hashed, found, if_pos hashed]
        cases started with
        | incoming => rfl
        | outgoing => simp [outgoingPeer] at incoming

/-- The handshake is the one that was expected, from a peer that is not connected already. -/
structure HandshakeSound (identity : Nat → TorrentIdentity) (start : HandshakePeer)
    (bytes : List UInt8) (reading : HandshakeReading) : Prop where
  protocol : bytes.take 20 = bittorrentId
  infoHash : ∃ torrent, reading.peer.torrent = some torrent ∧
    (identity torrent).infoHash = idAt bytes 28
  id : reading.peer.id = idAt bytes 48
  expected : bittorrentIdIsEmpty start.id = false → reading.peer.id = start.id
  unknown : ∀ torrent, reading.peer.torrent = some torrent →
    Joins identity reading.peer torrent reading.lists

def LookupExact (pointerSize : Nat) (identity : Nat → TorrentIdentity) (start : HandshakePeer)
    (reads : List (PeerLists × List UInt8)) : Prop :=
  start.initiater = false → ∀ torrent, lookedUp pointerSize identity [] reads = some torrent →
    (identity torrent).infoHash = idAt (bytesRead reads) 28

/-- A handshake that is accepted is sound exactly when the look-up found the torrent of its
whole info hash; and the verdict does not depend on how its bytes arrive. -/
theorem handshake_sound (pointerSize : Nat) (identity : Nat → TorrentIdentity)
    (started : StartsHandshake start) :
    (∀ reads, (readHandshakes pointerSize identity start reads).checked = .ok →
      (HandshakeSound identity start (bytesRead reads)
          (readHandshakes pointerSize identity start reads) ↔
        LookupExact pointerSize identity start reads)) ∧
    ∀ (lists : PeerLists) (chunks : List (List UInt8)),
      (readHandshakes pointerSize identity start (chunks.map fun chunk => (lists, chunk))).checked =
        (checkBittorrentPeerHandshake pointerSize identity lists start chunks.flatten).1 := by
  refine ⟨fun reads accepted => ?_, readHandshakes_checked started⟩
  obtain ⟨torrent, known⟩ := (readHandshakes_spec started reads).2 accepted
  constructor
  · intro sound incoming other found
    obtain ⟨attached, same, hash⟩ := sound.infoHash
    rw [known.attached, Option.some.injEq] at same
    rw [known.incoming incoming, Option.some.injEq] at found
    rw [← found, same]
    exact hash
  · intro exact_
    refine ⟨known.protocol, ⟨torrent, known.attached, ?_⟩, known.id, ?_, fun other attached => ?_⟩
    · cases kind : start.initiater with
      | true => exact (known.outgoing kind).1
      | false => exact exact_ kind torrent (known.incoming kind)
    · cases started with
      | incoming => simp [incomingPeer, bittorrentIdIsEmpty]
      | outgoing => exact (known.outgoing rfl).2
    · rw [known.attached, Option.some.injEq] at attached
      rw [← attached]
      exact known.joins

def onesTorrent : TorrentIdentity := ⟨List.replicate 20 1, List.replicate 20 69⟩

def onesLists : PeerLists := ⟨[0], fun _ => [], fun _ => [], fun _ => false⟩

def twoReads (infoHash : List UInt8) : List (PeerLists × List UInt8) :=
  [(onesLists, bittorrentId ++ List.replicate 8 0 ++ infoHash), (onesLists, List.replicate 20 66)]

theorem handshake_sound_ones :
    HandshakeSound (fun _ => onesTorrent) (incomingPeer 0)
      (bytesRead (twoReads (List.replicate 20 1)))
      (readHandshakes 8 (fun _ => onesTorrent) (incomingPeer 0)
        (twoReads (List.replicate 20 1))) := by
  have accepted : (readHandshakes 8 (fun _ => onesTorrent) (incomingPeer 0)
      (twoReads (List.replicate 20 1))).checked = .ok := by decide +kernel
  have hash : onesTorrent.infoHash = idAt (bytesRead (twoReads (List.replicate 20 1))) 28 := by
    decide +kernel
  exact ((handshake_sound 8 (fun _ => onesTorrent) (StartsHandshake.incoming 0)).1 _ accepted).mpr
    fun _ _ _ => hash

/-- A peer of another torrent is let in when the first eight bytes of the info hashes agree. -/
theorem handshake_sound_foreign :
    (readHandshakes 8 (fun _ => onesTorrent) (incomingPeer 0)
        (twoReads (List.replicate 8 1 ++ List.replicate 12 2))).checked = .ok ∧
      ¬HandshakeSound (fun _ => onesTorrent) (incomingPeer 0)
        (bytesRead (twoReads (List.replicate 8 1 ++ List.replicate 12 2)))
        (readHandshakes 8 (fun _ => onesTorrent) (incomingPeer 0)
          (twoReads (List.replicate 8 1 ++ List.replicate 12 2))) := by
  refine ⟨by decide +kernel, fun sound => ?_⟩
  obtain ⟨torrent, _, hash⟩ := sound.infoHash
  have differs : onesTorrent.infoHash ≠
      idAt (bytesRead (twoReads (List.replicate 8 1 ++ List.replicate 12 2))) 28 := by decide +kernel
  exact differs hash

end KcnTools.Bittorrent
