import KcnTools.Bittorrent.BencodedText
import KcnTools.Bittorrent.PeerHandshake
import KcnTools.Lib.BigEndian
import KcnTools.Protocol.UriParse

/-! The peers that a tracker names, from its answer to the fake URI that the connection is made
with (`bencoding.c`, `common.c`, `peerconnect.c`, `uri.c`). -/

namespace KcnTools.Bittorrent

open Cache (wrapInt)
open Decimal
open Protocols (cString cString_of_not_mem isdigit strtol protocolBackend)

structure BittorrentPeer where
  id : List UInt8
  port : UInt16
  ip : List UInt8
  deriving DecidableEq

/-- What `add_peer_to_bittorrent_pool` uses of the connection, with the numbers and IDs of its
peers, and of the blacklist. -/
structure BittorrentPeers where
  identity : TorrentIdentity
  peers : List (Nat × List UInt8)
  blacklisted : List UInt8 → Bool
  peerPool : List BittorrentPeer

def uriPortIsValid (port : Int) : Bool := 0 ≤ port && port ≤ 65535

def addToPeerPool (bittorrent : BittorrentPeers) (peer : BittorrentPeer) : BittorrentPeers :=
  { bittorrent with peerPool := peer :: bittorrent.peerPool }

def addPeerToBittorrentPool (bittorrent : BittorrentPeers) (id : Option (List UInt8)) (port : Int)
    (ip : List UInt8) : BittorrentState × BittorrentPeers :=
  if ip.length = 0 ∨ uriPortIsValid port = false then (.ok, bittorrent)
  else
    match id with
    | none => (.ok, addToPeerPool bittorrent ⟨bittorrentNullId, UInt16.ofNat port.toNat, ip⟩)
    | some id =>
        if bittorrentIdIsEmpty id then (.error, bittorrent)
        else if bittorrentIdIsKnown bittorrent.identity bittorrent.peers (bittorrent.peerPool.map (·.id)) id then
          (.ok, bittorrent)
        else if bittorrent.blacklisted id then (.ok, bittorrent)
        else (.ok, addToPeerPool bittorrent ⟨id, UInt16.ofNat port.toNat, ip⟩)

def ipAddress (a b c d : UInt8) : List UInt8 :=
  decimal a.toNat ++ 46 :: (decimal b.toNat ++ 46 :: (decimal c.toNat ++ 46 :: decimal d.toNat))

def ntohs (high low : UInt8) : Nat := BigEndian.decode [high, low]

def parseBencodingPeersString (bittorrent : BittorrentPeers) : List UInt8 → BittorrentState × BittorrentPeers
  | a :: b :: c :: d :: high :: low :: string =>
      match addPeerToBittorrentPool bittorrent none (ntohs high low) (ipAddress a b c d) with
      | (.ok, bittorrent) => parseBencodingPeersString bittorrent string
      | failure => failure
  | _ => (.ok, bittorrent)

structure PeerDictionary where
  ip : List UInt8
  id : List UInt8
  port : Int

def initialPeerDictionary : PeerDictionary := ⟨[], bittorrentNullId, -1⟩

def parsePeerEntry (bittorrent : BittorrentPeers) (peer : PeerDictionary) (key : BencodingKey)
    (tokens : List ReadToken) :
    Except (BittorrentState × BittorrentPeers) (PeerDictionary × List ReadToken) :=
  match key, tokens with
  | .ip, value :: tokens => .ok ({ peer with ip := value.string }, tokens)
  | .port, value :: tokens => .ok ({ peer with port := wrapInt (parseBencodingInteger value.string) }, tokens)
  | .peerId, value :: tokens =>
      if value.string.length ≠ 20 then .error (.error, bittorrent)
      else .ok ({ peer with id := value.string }, tokens)
  | _, tokens => .ok (peer, skipBencodingTokens 0 tokens)

def finishPeerDictionary (bittorrent : BittorrentPeers) (peer : PeerDictionary) (tokens : List ReadToken) :
    Except (BittorrentState × BittorrentPeers) (BittorrentPeers × List ReadToken) :=
  match addPeerToBittorrentPool bittorrent (some peer.id) peer.port peer.ip with
  | (.ok, bittorrent) => .ok (bittorrent, tokens.drop 1)
  | failure => .error failure

def parseBencodingPeerDictionary (bittorrent : BittorrentPeers) (tokens : List ReadToken) :
    Except (BittorrentState × BittorrentPeers) (BittorrentPeers × List ReadToken) :=
  parseBencodingEntries (parsePeerEntry bittorrent) (finishPeerDictionary bittorrent)
    (fun _ => (.error, bittorrent)) tokens.length initialPeerDictionary (tokens.drop 1)

/-- The fields of the fake URI. `port` is what its buffer holds, and `portlen` what `snprintf`
returned for it. -/
structure PeerUri where
  host : List UInt8
  port : List UInt8
  portlen : Nat

def snprintf (size : Nat) (text : List UInt8) : List UInt8 := text.take (size - 1)

/-- The URI that `make_connection` gets, with its buffer of five bytes for the port. -/
def makeBittorrentPeerConnection (peer : BittorrentPeer) : PeerUri :=
  ⟨cString peer.ip, snprintf 5 (decimal peer.port.toNat), (decimal peer.port.toNat).length⟩

def getUriPort (uri : PeerUri) : Option Nat :=
  let digits := uri.port.takeWhile isdigit
  if uri.portlen ≠ 0 ∧ digits ≠ [] then strtol digits else some (protocolBackend .bittorrent).port

/-- The connection for this entry of the pool goes to the address. -/
structure DialsAddress (peer : BittorrentPeer) (ip : List UInt8) (port : Int) : Prop where
  host : (makeBittorrentPeerConnection peer).host = ip
  port : (getUriPort (makeBittorrentPeerConnection peer)).map Nat.cast = some port

section Dialling

theorem cString_eq_self_iff {bytes : List UInt8} : cString bytes = bytes ↔ 0 ∉ bytes := by
  constructor
  · intro same member
    rw [← same] at member
    simpa using List.mem_takeWhile_imp member
  · exact cString_of_not_mem

theorem strtol_decimal {n : Nat} (small : n < 2 ^ 63) : strtol (decimal n) = some n := by
  have value : (decimal n).foldl (fun value c => 10 * value + (c.toNat - 48)) 0 = n := decimalValue_decimal n
  simp only [strtol, value, if_pos small]

theorem snprintf_decimal {n : Nat} (small : n < 10 ^ 5) :
    snprintf 5 (decimal n) = decimal (if n < 10 ^ 4 then n else n / 10) := by
  split
  next fits => exact List.take_of_length_le (decimal_length_le fits)
  next large =>
    have front : (decimal (n / 10)).length = 4 := by
      have most : (decimal (n / 10)).length ≤ 4 := decimal_length_le (by omega)
      have least : 3 < (decimal (n / 10)).length := le_decimal_length (by omega)
      omega
    rw [snprintf, decimal_append (by omega)]
    exact List.take_left' front

theorem getUriPort_connection (peer : BittorrentPeer) :
    getUriPort (makeBittorrentPeerConnection peer) =
      some (if peer.port.toNat < 10 ^ 4 then peer.port.toNat else peer.port.toNat / 10) := by
  have small : peer.port.toNat < 2 ^ 16 := peer.port.toNat_lt
  have port := snprintf_decimal (n := peer.port.toNat) (by omega)
  generalize written : (if peer.port.toNat < 10 ^ 4 then peer.port.toNat else peer.port.toNat / 10) = n at port ⊢
  have below : n < 2 ^ 16 := by
    rw [← written]
    split <;> omega
  have digits : (decimal n).takeWhile isdigit = decimal n :=
    List.takeWhile_eq_self_iff.mpr fun c member => isdigit_decimal member
  have filled : (decimal peer.port.toNat).length ≠ 0 := (List.length_pos_iff.mpr (decimal_ne_nil _)).ne'
  rw [getUriPort, makeBittorrentPeerConnection, port, digits]
  dsimp only
  rw [if_pos ⟨filled, decimal_ne_nil n⟩, strtol_decimal (by omega)]

theorem dialsAddress_iff (peer : BittorrentPeer) :
    DialsAddress peer peer.ip peer.port.toNat ↔ peer.port.toNat < 10000 ∧ 0 ∉ peer.ip := by
  have port : (getUriPort (makeBittorrentPeerConnection peer)).map Nat.cast = some (peer.port.toNat : Int) ↔
      peer.port.toNat < 10000 := by
    rw [getUriPort_connection, Option.map_some, Option.some_inj]
    split <;> omega
  constructor
  · intro dials
    exact ⟨port.mp dials.port, cString_eq_self_iff.mp dials.host⟩
  · rintro ⟨small, noNul⟩
    exact ⟨cString_eq_self_iff.mpr noNul, port.mpr small⟩

end Dialling

def compactPeers : List UInt8 → List (List UInt8 × Nat)
  | a :: b :: c :: d :: high :: low :: string =>
      (ipAddress a b c d, 256 * high.toNat + low.toNat) :: compactPeers string
  | _ => []

def latestIp (ip : List UInt8) (entry : List UInt8 × BencodedValue) : List UInt8 :=
  match entry.2 with
  | .string bytes => if bencodingKey entry.1 .string = .ip then bytes else ip
  | _ => ip

def latestPort (port : Int) (entry : List UInt8 × BencodedValue) : Int :=
  match entry.2 with
  | .integer value => if bencodingKey entry.1 .integer = .port then value else port
  | _ => port

def entryIp (entries : BencodedEntries) : List UInt8 := entries.foldl latestIp []

def entryPort (entries : BencodedEntries) : Int := entries.foldl latestPort (-1)

section Reading

theorem not_mem_ipAddress (a b c d : UInt8) : 0 ∉ ipAddress a b c d := by
  have digits (n : Nat) : 0 ∉ decimal n := fun member => absurd (decimal_digits member).1 (by decide)
  have dot : (0 : UInt8) ≠ 46 := by decide
  simp only [ipAddress, List.mem_append, List.mem_cons, not_or]
  exact ⟨digits _, dot, digits _, dot, digits _, dot, digits _⟩

theorem ntohs_eq (high low : UInt8) : ntohs high low = 256 * high.toNat + low.toNat ∧ ntohs high low < 2 ^ 16 := by
  have first := high.toNat_lt
  have second := low.toNat_lt
  have value : ntohs high low = 256 * high.toNat + low.toNat := by
    show (0 * 256 + high.toNat) * 256 + low.toNat = _
    omega
  exact ⟨value, by omega⟩

def compactPeer (a b c d high low : UInt8) : BittorrentPeer :=
  ⟨bittorrentNullId, UInt16.ofNat (ntohs high low), ipAddress a b c d⟩

theorem addPeerToBittorrentPool_compact (bittorrent : BittorrentPeers) (a b c d high low : UInt8) :
    addPeerToBittorrentPool bittorrent none (ntohs high low) (ipAddress a b c d) =
      (.ok, addToPeerPool bittorrent (compactPeer a b c d high low)) := by
  obtain ⟨_, small⟩ := ntohs_eq high low
  have filled : (ipAddress a b c d).length ≠ 0 := by
    rw [ipAddress, List.length_append, List.length_cons]
    omega
  have valid : uriPortIsValid (ntohs high low) = true := by
    rw [uriPortIsValid, Bool.and_eq_true, decide_eq_true_eq, decide_eq_true_eq]
    omega
  rw [addPeerToBittorrentPool, if_neg (by rw [valid]; exact not_or_intro filled Bool.noConfusion)]
  rfl

theorem compactPeer_dials (a b c d high low : UInt8) :
    DialsAddress (compactPeer a b c d high low) (ipAddress a b c d) (256 * high.toNat + low.toNat : Nat) ↔
      256 * high.toNat + low.toNat < 10000 := by
  obtain ⟨port, small⟩ := ntohs_eq high low
  have same : (compactPeer a b c d high low).port.toNat = 256 * high.toNat + low.toNat :=
    (UInt16.toNat_ofNat_of_lt' small).trans port
  have dialled := dialsAddress_iff (compactPeer a b c d high low)
  rw [same] at dialled
  exact dialled.trans (and_iff_left (not_mem_ipAddress a b c d))

theorem parseBencodingPeersString_dials (bittorrent : BittorrentPeers) (string : List UInt8) :
    ∃ added, parseBencodingPeersString bittorrent string =
        (.ok, { bittorrent with peerPool := added.reverse ++ bittorrent.peerPool }) ∧
      List.Forall₂ (fun peer address => DialsAddress peer address.1 address.2 ↔ address.2 < 10000) added
        (compactPeers string) := by
  match string with
  | a :: b :: c :: d :: high :: low :: string =>
      obtain ⟨added, parsed, dials⟩ :=
        parseBencodingPeersString_dials (addToPeerPool bittorrent (compactPeer a b c d high low)) string
      refine ⟨compactPeer a b c d high low :: added, ?_, .cons (compactPeer_dials a b c d high low) dials⟩
      rw [parseBencodingPeersString, addPeerToBittorrentPool_compact]
      dsimp only
      rw [parsed, addToPeerPool, List.reverse_cons, List.append_assoc]
      rfl
  | [] | [_] | [_, _] | [_, _, _] | [_, _, _, _] | [_, _, _, _, _] => exact ⟨[], rfl, .nil⟩

def readPeerEntry (bittorrent : BittorrentPeers) (peer : PeerDictionary) (key : List UInt8) (value : BencodedValue) :
    Except (BittorrentState × BittorrentPeers) PeerDictionary :=
  match bencodingKey key value.type, value with
  | .ip, .string bytes => .ok { peer with ip := bytes }
  | .port, .integer port => .ok { peer with port := wrapInt (parseBencodingInteger (encodeInteger port)) }
  | .peerId, .string bytes => if bytes.length ≠ 20 then .error (.error, bittorrent) else .ok { peer with id := bytes }
  | _, _ => .ok peer

theorem parsePeerEntry_reads (text : List UInt8) (bittorrent : BittorrentPeers) :
    ReadsEntries text (parsePeerEntry bittorrent) (readPeerEntry bittorrent) := by
  intro parsed key value position rest _
  cases found : bencodingKey key value.type with
  | ip =>
      obtain ⟨bytes, rfl⟩ := BencodedValue.string_of_type (bencodingKey_type found BencodingKey.noConfusion (by decide))
      simp only [readPeerEntry, found, valueTokens]
      rfl
  | port =>
      obtain ⟨port, rfl⟩ := BencodedValue.integer_of_type (bencodingKey_type found BencodingKey.noConfusion (by decide))
      simp only [readPeerEntry, found, valueTokens]
      rfl
  | peerId =>
      obtain ⟨bytes, rfl⟩ := BencodedValue.string_of_type (bencodingKey_type found BencodingKey.noConfusion (by decide))
      simp only [readPeerEntry, found, valueTokens]
      show (if bytes.length ≠ 20 then _ else _) = _
      split <;> rfl
  | _ =>
      simp only [readPeerEntry, found]
      exact congrArg (fun tokens => Except.ok (parsed, tokens)) (skipBencodingTokens_whole value position rest)

def readPort (port : Int) : Int := wrapInt (parseBencodingInteger (encodeInteger port))

theorem latestIp_other {key : List UInt8} {value : BencodedValue} (other : bencodingKey key value.type ≠ .ip)
    (ip : List UInt8) : latestIp ip (key, value) = ip := by
  cases value with
  | string bytes => exact if_neg other
  | _ => rfl

theorem latestPort_other {key : List UInt8} {value : BencodedValue} (other : bencodingKey key value.type ≠ .port)
    (port : Int) : latestPort port (key, value) = port := by
  cases value with
  | integer number => exact if_neg other
  | _ => rfl

theorem readPeerEntry_fields {bittorrent : BittorrentPeers} {peer next : PeerDictionary} {key : List UInt8}
    {value : BencodedValue} {port : Int} (here : peer.port = readPort port)
    (read : readPeerEntry bittorrent peer key value = .ok next) :
    next.ip = latestIp peer.ip (key, value) ∧ next.port = readPort (latestPort port (key, value)) := by
  cases found : bencodingKey key value.type with
  | ip =>
      obtain ⟨bytes, rfl⟩ := BencodedValue.string_of_type (bencodingKey_type found BencodingKey.noConfusion (by decide))
      simp only [readPeerEntry, found] at read
      cases read
      exact ⟨(if_pos found).symm, here⟩
  | port =>
      obtain ⟨number, rfl⟩ := BencodedValue.integer_of_type (bencodingKey_type found BencodingKey.noConfusion
          (by decide))
      simp only [readPeerEntry, found] at read
      cases read
      exact ⟨rfl, (congrArg readPort (if_pos found)).symm⟩
  | peerId =>
      obtain ⟨bytes, rfl⟩ := BencodedValue.string_of_type (bencodingKey_type found BencodingKey.noConfusion (by decide))
      simp only [readPeerEntry, found] at read
      rw [latestIp_other (by rw [found]; exact BencodingKey.noConfusion)]
      split at read
      · cases read
      · cases read
        exact ⟨rfl, here⟩
  | _ =>
      simp only [readPeerEntry, found] at read
      cases read
      rw [latestIp_other (by rw [found]; exact BencodingKey.noConfusion),
        latestPort_other (by rw [found]; exact BencodingKey.noConfusion)]
      exact ⟨rfl, here⟩

theorem entries_read {bittorrent : BittorrentPeers} {entries : BencodedEntries} {peer last : PeerDictionary}
    {port : Int}
    (here : peer.port = readPort port)
    (read : entries.foldlM (fun parsed entry => readPeerEntry bittorrent parsed entry.1 entry.2) peer = .ok last) :
    last.ip = entries.foldl latestIp peer.ip ∧ last.port = readPort (entries.foldl latestPort port) := by
  induction entries generalizing peer port with
  | nil =>
      cases read
      exact ⟨rfl, here⟩
  | cons entry entries ih =>
      obtain ⟨key, value⟩ := entry
      rw [List.foldlM_cons] at read
      cases first : readPeerEntry bittorrent peer key value with
      | error failure =>
          rw [first] at read
          cases read
      | ok next =>
          rw [first] at read
          obtain ⟨ip, kept⟩ := readPeerEntry_fields here first
          obtain ⟨lastIp, lastPort⟩ := ih kept read
          rw [ip] at lastIp
          exact ⟨lastIp, lastPort⟩

theorem le_foldl_digits (digits : List UInt8) (value : Nat) :
    value ≤ digits.foldl (fun value c => 10 * value + (c.toNat - 48)) value := by
  induction digits generalizing value with
  | nil => exact Nat.le_refl value
  | cons c digits ih =>
      rw [List.foldl_cons]
      exact Nat.le_trans (by omega) (ih _)

theorem integerDigits_value {digits : List UInt8} (all : ∀ c ∈ digits, isdigit c = true) (value : Nat)
    (small : digits.foldl (fun value c => 10 * value + (c.toNat - 48)) value < 2 ^ 63) :
    integerDigits value digits = some (digits.foldl (fun value c => 10 * value + (c.toNat - 48)) value : Nat) := by
  induction digits generalizing value with
  | nil => rfl
  | cons c digits ih =>
      rw [List.forall_mem_cons] at all
      rw [List.foldl_cons] at small ⊢
      have digit := all.1
      rw [isdigit, Bool.and_eq_true, decide_eq_true_eq, decide_eq_true_eq, UInt8.le_iff_toNat_le,
        UInt8.le_iff_toNat_le] at digit
      have lower : 48 ≤ c.toNat := digit.1
      have upper : c.toNat ≤ 57 := digit.2
      have next := le_foldl_digits digits (10 * value + (c.toNat - 48))
      have wrapped : wrapOff ((value : Int) * 10 + c.toNat - 48) = (10 * value + (c.toNat - 48) : Nat) := by
        rw [wrapOff]
        omega
      have exact : ¬ ((10 * value + (c.toNat - 48) : Nat) : Int).tdiv 10 ≠ value := by
        rw [Int.tdiv_eq_ediv_of_nonneg (Int.natCast_nonneg _)]
        omega
      rw [integerDigits, if_pos all.1, wrapped]
      dsimp only
      rw [if_neg exact]
      exact ih all.2 _ small

theorem readPort_valid {port : Int} (valid : uriPortIsValid port = true) : readPort port = port := by
  rw [uriPortIsValid, Bool.and_eq_true, decide_eq_true_eq, decide_eq_true_eq] at valid
  obtain ⟨n, rfl⟩ := Int.eq_ofNat_of_zero_le valid.1
  have value : (decimal n).foldl (fun value c => 10 * value + (c.toNat - 48)) 0 = n := decimalValue_decimal n
  have read := integerDigits_value (fun c member => isdigit_decimal member) 0 (value.trans_lt (by omega))
  rw [value] at read
  have unsigned : ∀ digits, decimal n ≠ 45 :: digits := by
    intro digits signed
    have digit := (decimal_digits (signed ▸ List.mem_cons_self : (45 : UInt8) ∈ decimal n)).1
    exact absurd digit (by decide)
  have parsed : parseBencodingInteger (decimal n) = n := by
    rw [parseBencodingInteger.eq_2 _ unsigned]
    exact congrArg (Option.getD · 0) read
  show wrapInt (parseBencodingInteger (decimal n)) = n
  rw [parsed, Cache.wrapInt_of_bounds (by omega) (by omega)]

theorem addPeerToBittorrentPool_added {bittorrent after : BittorrentPeers} {id : List UInt8} {port : Int}
    {ip : List UInt8} (valid : uriPortIsValid port = true)
    (added : addPeerToBittorrentPool bittorrent (some id) port ip = (.ok, after)) :
    after = bittorrent ∨ ∃ peer, after = addToPeerPool bittorrent peer ∧ peer.ip = ip ∧ peer.port.toNat = port := by
  have small := valid
  rw [uriPortIsValid, Bool.and_eq_true, decide_eq_true_eq, decide_eq_true_eq] at small
  have same : ((UInt16.ofNat port.toNat).toNat : Int) = port := by
    rw [UInt16.toNat_ofNat_of_lt' (show port.toNat < 2 ^ 16 by omega)]
    omega
  rw [addPeerToBittorrentPool] at added
  repeat' split at added
  all_goals cases added
  · exact .inl rfl
  · exact .inl rfl
  · exact .inl rfl
  · exact .inr ⟨_, rfl, rfl, same⟩

/-- A peer's dictionary adds no peer, or one that is dialled at its address if this has a short
port and no NUL. -/
theorem parseBencodingPeerDictionary_dials {bittorrent after : BittorrentPeers} {entries : BencodedEntries}
    (valid : uriPortIsValid (entryPort entries) = true) {position : Nat} {rest left : List ReadToken}
    (parsed : parseBencodingPeerDictionary bittorrent (valueTokens position (.dictionary entries) ++ rest) =
      .ok (after, left)) :
    left = rest ∧ (after = bittorrent ∨ ∃ peer, after = addToPeerPool bittorrent peer ∧
      (DialsAddress peer (entryIp entries) (entryPort entries) ↔ entryPort entries < 10000 ∧ 0 ∉ entryIp entries)) := by
  have here : (List.replicate position 0 ++ encodeValue (.dictionary entries)).drop position =
      encodeValue (.dictionary entries) ++ [] := by
    rw [List.append_nil]
    exact List.drop_left' List.length_replicate
  rw [parseBencodingPeerDictionary,
    parseBencodingEntries_dictionary (parsePeerEntry_reads _ bittorrent) _ _ _ here] at parsed
  cases read : entries.foldlM (fun parsed entry => readPeerEntry bittorrent parsed entry.1 entry.2)
      initialPeerDictionary with
  | error failure =>
      rw [read] at parsed
      cases parsed
  | ok last =>
      have unset : initialPeerDictionary.port = readPort (-1) := by decide
      obtain ⟨ip, port⟩ := entries_read unset read
      rw [read] at parsed
      have finish : finishPeerDictionary bittorrent last _ = .ok (after, left) := parsed
      rw [show entries.foldl latestPort (-1) = entryPort entries from rfl, readPort_valid valid] at port
      rw [finishPeerDictionary, port, ip] at finish
      split at finish
      next pooled answer =>
        cases finish
        refine ⟨rfl, ?_⟩
        obtain rfl | ⟨peer, rfl, sameIp, samePort⟩ := addPeerToBittorrentPool_added valid answer
        · exact .inl rfl
        · refine .inr ⟨peer, rfl, ?_⟩
          have dials := dialsAddress_iff peer
          rw [sameIp, samePort] at dials
          exact dials.trans (and_congr (by omega) Iff.rfl)
      next => cases finish

end Reading

def noPeers : BittorrentPeers := ⟨⟨[], List.replicate 20 65⟩, [], fun _ => false, []⟩

end KcnTools.Bittorrent
