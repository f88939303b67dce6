import KcnTools.Bittorrent.PeerWire
import KcnTools.Lib.Run

/-!
A torrent as a machine: requests and messages leave for a peer, data arrives from
it, peers come and go, and the resume thread reports the pieces found on disk.
-/

namespace KcnTools.Bittorrent

/-- What lies outside when pending messages are sent: random numbers and the disk. -/
structure BittorrentOutside where
  draws : Nat → BittorrentDraws
  answer : Nat → Nat → BittorrentFileAnswer
  beyond : Nat → UInt8

def queueRequests (options : BittorrentOptions) (draws : Nat → BittorrentDraws) (index : Nat) :
    Nat → BittorrentConnection → BittorrentConnection
  | 0, bittorrent => bittorrent
  | count + 1, bittorrent =>
      match bittorrent.peers[index]? with
      | none => bittorrent
      | some peer =>
          let found := findBittorrentPeerRequest options (draws count) bittorrent peer
          match found.2 with
          | none => found.1
          | some request =>
              queueRequests options draws index count
                (found.1.modifyPeer index fun peer =>
                  { peer with localStatus.requests := peer.localStatus.requests ++ [request] })

def queueBittorrentPeerConnectionRequests (options : BittorrentOptions)
    (draws : Nat → BittorrentDraws) (bittorrent : BittorrentConnection) (index : Nat)
    (peer : BittorrentPeerConnection) : BittorrentConnection :=
  (queueRequests options draws index
    (options.requestQueueSize - peer.localStatus.requests.length) bittorrent).modifyPeer index
    fun peer =>
      if peer.localStatus.requests = [] then setBittorrentPeerNotInterested peer else peer

def writeMessage (bitfield : Bitfield) (message : BittorrentPeerRequest) (data : List UInt8)
    (peer : BittorrentPeerConnection) : BittorrentPeerConnection :=
  { peer with
    localStatus.bitfield := true
    writeBuffer := some (composeBittorrentPeerMessage bitfield message data) }

def requestedRequest (request : BittorrentPeerRequest) : BittorrentPeerRequest :=
  { request with id := .request, requested := true }

def markRequested : List BittorrentPeerRequest → List BittorrentPeerRequest
  | [] => []
  | request :: rest =>
      if request.requested then request :: markRequested rest else requestedRequest request :: rest

def sendPieces (outside : BittorrentOutside) (index : Nat) :
    Nat → Nat → BittorrentConnection → BittorrentConnection
  | 0, _, bittorrent => bittorrent
  | count + 1, position, bittorrent =>
      match (bittorrent.peers[index]?).bind fun peer => peer.remoteStatus.requests[position]? with
      | none => bittorrent
      | some request =>
          let found := getBittorrentPieceCacheData (outside.answer request.piece) bittorrent
            request.piece
          match found.2 with
          | none =>
              sendPieces outside index count (position + 1)
                (found.1.modifyPeer index fun peer =>
                  { peer with
                    remoteStatus.requests := peer.remoteStatus.requests.modify position
                      fun request => { request with id := .piece } })
          | some data =>
              let message := { request with id := .piece }
              let sent := found.1.modifyPeer index fun peer =>
                { writeMessage found.1.cache.bitfield message
                    (readBlock data outside.beyond message) peer with
                  remoteStatus.requests := peer.remoteStatus.requests.eraseIdx position }
              updateBittorrentConnectionStats sent 0 request.length 0

def sendPending (outside : BittorrentOutside) (bittorrent : BittorrentConnection) (index : Nat)
    (peer : BittorrentPeerConnection) : BittorrentConnection :=
  match peer.queue with
  | message :: rest =>
      bittorrent.modifyPeer index fun peer =>
        { writeMessage bittorrent.cache.bitfield message [] peer with queue := rest }
  | [] =>
      match peer.localStatus.requests.find? fun request => !request.requested with
      | some request =>
          bittorrent.modifyPeer index fun peer =>
            let written := writeMessage bittorrent.cache.bitfield (requestedRequest request) [] peer
            { written with
              localStatus.requests := markRequested written.localStatus.requests }
      | none => sendPieces outside index peer.remoteStatus.requests.length 0 bittorrent

def isFinishedPeer (bittorrent : BittorrentConnection) (peer : BittorrentPeerConnection) : Bool :=
  (peer.remoteStatus.seeder && bittorrent.mode == .seeder) ||
    (bittorrent.cache.partialDownload &&
      bittorrent.cache.partialPieces == bittorrent.cache.completedPieces)

def updateBittorrentPeerConnectionState (options : BittorrentOptions) (outside : BittorrentOutside)
    (bittorrent : BittorrentConnection) (index : Nat) : BittorrentConnection :=
  match bittorrent.peers[index]? with
  | none => bittorrent
  | some peer =>
      if isFinishedPeer bittorrent peer then doneBittorrentPeerConnection bittorrent index
      else
        let queued := if peer.localStatus.interested && !peer.localStatus.choked then
            queueBittorrentPeerConnectionRequests options outside.draws bittorrent index peer
          else bittorrent
        match queued.peers[index]? with
        | none => queued
        | some peer => if peer.writeBuffer.isSome then queued else sendPending outside queued index peer

def newPeer (pieces : Nat) : BittorrentPeerConnection where
  localStatus := ⟨[], true, false, false, false⟩
  remoteStatus := ⟨[], true, false, false, false⟩
  queue := []
  bitfield := initBitfield pieces
  writeBuffer := none

inductive BittorrentEvent
  | resume (completed : List UInt8)
  | connect
  | sort (peers : List BittorrentPeerConnection)
  | receive (index : Nat) (data : List UInt8) (receive : BittorrentReceive)
  | update (index : Nat) (outside : BittorrentOutside)
  | sent (index : Nat)
  | choke (index : Nat)
  | unchoke (index : Nat)
  | handshakeSent (index : Nat)
  | shrink
  | disconnect (index : Nat)

/-- A turn of the message loop, `none` when it ends the whole download. -/
def receiveStep (options : BittorrentOptions) (bittorrent : BittorrentConnection) (index : Nat)
    (data : List UInt8) (receive : BittorrentReceive) : Option BittorrentConnection :=
  match bittorrent.peers[index]? with
  | none => some bittorrent
  | some peer =>
      let received := receiveBittorrentPeerMessage options receive bittorrent index peer data
      if received.2.isAborted then none else some received.1

/-- Peers take part only after resuming, `none` when the download is aborted. -/
def bittorrentStep (options : BittorrentOptions) (bittorrent : BittorrentConnection)
    (event : BittorrentEvent) : Option BittorrentConnection :=
  if bittorrent.cache.resumeFd = -1 then
    match event with
    | .resume _ => some bittorrent
    | .connect =>
        some { bittorrent with peers := newPeer bittorrent.metainfo.pieces :: bittorrent.peers }
    | .sort peers => some (if peers.isPerm bittorrent.peers then { bittorrent with peers } else bittorrent)
    | .receive index data receive => receiveStep options bittorrent index data receive
    | .update index outside =>
        some (updateBittorrentPeerConnectionState options outside bittorrent index)
    | .sent index => some (bittorrent.modifyPeer index fun peer => { peer with writeBuffer := none })
    | .choke index => some (bittorrent.modifyPeer index chokeBittorrentPeer)
    | .unchoke index => some (bittorrent.modifyPeer index unchokeBittorrentPeer)
    | .handshakeSent index =>
        some (if bittorrent.cache.completedPieces = 0 then bittorrent
          else bittorrent.modifyPeer index fun peer => sendBittorrentPeerMessage peer .bitfield 0 0 0)
    | .shrink => some (updateBittorrentPieceCacheState options bittorrent)
    | .disconnect index => some (doneBittorrentPeerConnection bittorrent index)
  else
    match event with
    | .resume completed => some (bittorrentResumeReader options completed bittorrent)
    | _ => some bittorrent

end KcnTools.Bittorrent
