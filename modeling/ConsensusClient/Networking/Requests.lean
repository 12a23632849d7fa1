import ConsensusClient.Lib.Pieces
import ConsensusClient.Networking.Service

/-!
# Reading Requests for Blocks

A request for blocks is the bytes of the roots, one after the other. `decode_request` cuts the
payload into chunks of 32 bytes and skips the last chunk if it is shorter, so what it accepts is
the roots followed by fewer than 32 further bytes. The service sends no request that the other
side would not read.

## Main results

* `Encodings.decodeRequest_eq_ok_iff`: which payloads are accepted, and what is read of them
* `block_requests_read_exactly`: the same on the wire, with the round trip
* `NetworkService.sent_requests_read_back`: whatever the service sends is read by the other side
-/

namespace ConsensusClient

/-- The payload is the roots, written as 32 bytes each, and fewer than 32 further bytes. -/
def ReadsAs (payload : Bytes) (roots : List H256) : Prop :=
  (∀ root ∈ roots, root < 2 ^ 256) ∧
    ∃ rest : Bytes, rest.length < 32 ∧ payload = roots.flatMap H256.asBytes ++ rest

/-! ## Roots as bytes -/

theorem H256.length_asBytes (root : H256) : root.asBytes.length = 32 := length_bigEndian 32 root

theorem H256.length_of_mem_map {roots : List H256} :
    ∀ part ∈ roots.map H256.asBytes, part.length = 32 := by
  intro part hpart
  obtain ⟨root, -, rfl⟩ := List.mem_map.mp hpart
  exact H256.length_asBytes root

theorem H256.length_flatMap (roots : List H256) :
    (roots.flatMap H256.asBytes).length = roots.length * 32 := by
  rw [List.flatMap_def, length_flatten_pieces H256.length_of_mem_map, List.length_map]

/-- A root is read back from its bytes. -/
theorem H256.ofBytes_asBytes {root : H256} (h : root < 2 ^ 256) :
    H256.ofBytes root.asBytes = root := by
  rw [H256.ofBytes, H256.asBytes, ofBigEndian_bigEndian]
  exact Nat.mod_eq_of_lt (by simpa using h)

/-- Every 32 bytes are the bytes of a root. -/
theorem H256.asBytes_ofBytes {bytes : Bytes} (h : bytes.length = 32) :
    (H256.ofBytes bytes).asBytes = bytes := by
  rw [H256.ofBytes, H256.asBytes, ← h, bigEndian_ofBigEndian]

theorem H256.ofBytes_lt {bytes : Bytes} (h : bytes.length = 32) :
    H256.ofBytes bytes < 2 ^ 256 := by
  have hlt := ofBigEndian_lt bytes
  rw [h] at hlt
  simpa [H256.ofBytes] using hlt

/-! ## The decoder -/

/-- The roots that the loop of `decode_request` collects. -/
def requestRoots (payload : Bytes) : List H256 :=
  ((chunks 32 payload).filter fun chunk => chunk.length = 32).map H256.ofBytes

theorem requestRoots_eq (payload : Bytes) :
    requestRoots payload = (fullPieces 32 payload).map H256.ofBytes := rfl

theorem length_requestRoots (payload : Bytes) :
    (requestRoots payload).length = payload.length / 32 := by
  rw [requestRoots_eq, List.length_map, length_fullPieces (by simp)]

/-- The loop collects the roots that the payload is made of. -/
theorem requestRoots_eq_iff {payload : Bytes} {roots : List H256} :
    requestRoots payload = roots ↔ ReadsAs payload roots := by
  rw [requestRoots_eq]
  constructor
  · rintro rfl
    obtain ⟨parts, rest, rfl, hparts, hrest⟩ := exists_pieces (n := 32) (by simp) payload
    rw [fullPieces_flatten (by simp) hparts hrest]
    refine ⟨?_, rest, hrest, ?_⟩
    · intro root hroot
      obtain ⟨part, hpart, rfl⟩ := List.mem_map.mp hroot
      exact H256.ofBytes_lt (hparts part hpart)
    · -- writing the roots again gives the pieces they were read from
      have hback : parts.map (H256.asBytes ∘ H256.ofBytes) = parts.map id := by
        apply List.map_congr_left
        intro part hpart
        rw [Function.comp_apply, H256.asBytes_ofBytes (hparts part hpart), id_eq]
      rw [List.flatMap_def, List.map_map, hback, List.map_id]
  · rintro ⟨hroots, rest, hrest, rfl⟩
    have hback : roots.map (H256.ofBytes ∘ H256.asBytes) = roots.map id := by
      apply List.map_congr_left
      intro root hroot
      rw [Function.comp_apply, H256.ofBytes_asBytes (hroots root hroot), id_eq]
    rw [List.flatMap_def, fullPieces_flatten (by simp) H256.length_of_mem_map hrest,
      List.map_map, hback, List.map_id]

namespace Encodings

variable {lib : Encodings}

/-- What the decoder does with a message of the protocol. -/
theorem decodeRequest_blocksByRoot {data payload : Bytes} (hdata : data ≠ [])
    (hpayload : lib.decompress data = .ok payload) :
    lib.decodeRequest blocksByRootProtocolV1 data =
      if (requestRoots payload).length > maxRequestBlocks then
        .error (tooManyRoots (requestRoots payload).length)
      else .ok (.blocksByRoot (requestRoots payload)) := by
  unfold decodeRequest
  rw [if_neg hdata, hpayload, ok_bind, if_neg not_mentions_status,
    if_pos mentions_blocks_by_root]
  rfl

/-- The encoder writes the roots one after the other. -/
theorem encodeRequest_blocksByRoot (roots : List H256) :
    lib.encodeRequest (.blocksByRoot roots) = lib.compress (roots.flatMap H256.asBytes) := by
  unfold encodeRequest
  simp only [pure_eq_ok, ok_bind, List.flatMap_eq_foldl]

/-- The decoder accepts the payloads that are at most `MAX_REQUEST_BLOCKS` roots. -/
theorem decodeRequest_eq_ok_iff {data payload : Bytes} {roots : List H256} (hdata : data ≠ [])
    (hpayload : lib.decompress data = .ok payload) :
    lib.decodeRequest blocksByRootProtocolV1 data = .ok (.blocksByRoot roots) ↔
      ReadsAs payload roots ∧ roots.length ≤ maxRequestBlocks := by
  rw [decodeRequest_blocksByRoot hdata hpayload, ← requestRoots_eq_iff]
  split_ifs with hmany
  · simp only [false_iff, not_and]
    rintro rfl
    omega
  · simp only [Except.ok.injEq, LeanRequest.blocksByRoot.injEq]
    constructor
    · rintro rfl
      exact ⟨rfl, by omega⟩
    · exact fun h => h.1

/-- A request for 1 to `MAX_REQUEST_BLOCKS` blocks is read back. -/
theorem FramesBack.request_round_trip (hframe : lib.FramesBack) {roots : List H256}
    (hroots : ∀ root ∈ roots, root < 2 ^ 256) (hmin : 1 ≤ roots.length)
    (hmax : roots.length ≤ maxRequestBlocks) :
    (lib.encodeRequest (.blocksByRoot roots) >>= lib.decodeRequest blocksByRootProtocolV1) =
      .ok (.blocksByRoot roots) := by
  obtain ⟨framed, hcompress, hdecompress⟩ := hframe.round_trip (roots.flatMap H256.asBytes)
  have hne : roots.flatMap H256.asBytes ≠ [] := by
    intro hnil
    have hlength := H256.length_flatMap roots
    rw [hnil, List.length_nil] at hlength
    omega
  have hreads : ReadsAs (roots.flatMap H256.asBytes) roots :=
    ⟨hroots, [], by simp, (List.append_nil _).symm⟩
  rw [encodeRequest_blocksByRoot, hcompress, ok_bind]
  exact (decodeRequest_eq_ok_iff (hframe.framed_ne_nil hne hdecompress) hdecompress).mpr
    ⟨hreads, hmax⟩

end Encodings

/-- A message on `BLOCKS_BY_ROOT_PROTOCOL_V1` is read as the roots that its payload starts with,
    all of them, or rejected for their number. A request for 1 to `MAX_REQUEST_BLOCKS` blocks is
    read back. -/
theorem block_requests_read_exactly (lib : Encodings) :
    (∀ data payload, data ≠ [] → lib.decompress data = .ok payload →
      (∀ roots, lib.decodeRequest blocksByRootProtocolV1 data = .ok (.blocksByRoot roots) ↔
        ReadsAs payload roots ∧ roots.length ≤ maxRequestBlocks) ∧
      ((¬ ∃ roots, ReadsAs payload roots ∧ roots.length ≤ maxRequestBlocks) →
        lib.decodeRequest blocksByRootProtocolV1 data =
          .error (tooManyRoots (payload.length / 32)))) ∧
    (lib.FramesBack → ∀ roots : List H256, (∀ root ∈ roots, root < 2 ^ 256) →
      1 ≤ roots.length → roots.length ≤ maxRequestBlocks →
      (lib.encodeRequest (.blocksByRoot roots) >>= lib.decodeRequest blocksByRootProtocolV1) =
        .ok (.blocksByRoot roots)) := by
  constructor
  · intro data payload hdata hpayload
    refine ⟨fun roots => Encodings.decodeRequest_eq_ok_iff hdata hpayload, fun hnone => ?_⟩
    -- the payload is made of some roots, so there are too many of them
    have hmany : (requestRoots payload).length > maxRequestBlocks := by
      by_contra hfew
      exact hnone ⟨requestRoots payload, requestRoots_eq_iff.mp rfl, by omega⟩
    rw [Encodings.decodeRequest_blocksByRoot hdata hpayload, if_pos hmany, length_requestRoots]
  · intro hframe roots hroots hmin hmax
    exact hframe.request_round_trip hroots hmin hmax

/-- A request for two blocks is read back. -/
theorem two_roots_survive_wire :
    (SampleWire.encodings.encodeRequest (.blocksByRoot [1, 2]) >>=
        SampleWire.encodings.decodeRequest blocksByRootProtocolV1) =
      .ok (.blocksByRoot [1, 2]) :=
  (block_requests_read_exactly SampleWire.encodings).2 SampleWire.framesBack [1, 2] (by simp)
    (by simp) (by simp [maxRequestBlocks])

namespace SampleWire

/-- The payload of a request for the block with the root 1, with one more byte. -/
def longPayload : Bytes := H256.asBytes 1 ++ [7]

theorem longPayload_ne (roots : List H256) : longPayload ≠ roots.flatMap H256.asBytes := by
  intro h
  have hlength := H256.length_flatMap roots
  rw [← h, longPayload, List.length_append, H256.length_asBytes, List.length_singleton] at hlength
  omega

end SampleWire

/-- A payload that is not made of roots alone is accepted. -/
theorem further_byte_is_skipped :
    SampleWire.encodings.FramesBack ∧
      SampleWire.streamIdentifier ++ SampleWire.longPayload ≠ [] ∧
      SampleWire.encodings.decompress (SampleWire.streamIdentifier ++ SampleWire.longPayload) =
        .ok SampleWire.longPayload ∧
      SampleWire.encodings.decodeRequest blocksByRootProtocolV1
          (SampleWire.streamIdentifier ++ SampleWire.longPayload) = .ok (.blocksByRoot [1]) ∧
      ∀ roots : List H256, SampleWire.longPayload ≠ roots.flatMap H256.asBytes := by
  have hdata : SampleWire.streamIdentifier ++ SampleWire.longPayload ≠ [] := by
    simp [SampleWire.streamIdentifier]
  have hpayload : SampleWire.encodings.decompress
      (SampleWire.streamIdentifier ++ SampleWire.longPayload) = .ok SampleWire.longPayload := by
    simp [Encodings.decompress, SampleWire.encodings, SampleWire.streamIdentifier]
  refine ⟨SampleWire.framesBack, hdata, hpayload, ?_, SampleWire.longPayload_ne⟩
  have hreads : ReadsAs SampleWire.longPayload [1] :=
    ⟨by simp, [7], by simp, by simp [SampleWire.longPayload]⟩
  exact (Encodings.decodeRequest_eq_ok_iff hdata hpayload).mpr
    ⟨hreads, by simp [maxRequestBlocks]⟩

/-! ## The requests of a running service -/

namespace NetworkService

variable {PeerId : Type} {service : NetworkService PeerId} {peer : PeerId} {roots : List H256}

theorem requests_handleRequestResponseEvent {message : ReqRespMessage PeerId} :
    (service.handleRequestResponseEvent message).requests = service.requests := by
  unfold handleRequestResponseEvent
  split <;> rfl

/-- What the service asks for, it was asked for, and it is within the limit. -/
theorem mem_requests_dispatch {request : OutboundP2pRequest} {choice : ℕ}
    (h : (peer, LeanRequest.blocksByRoot roots) ∈
      (service.dispatchOutboundRequest request choice).requests) :
    (peer, LeanRequest.blocksByRoot roots) ∈ service.requests ∨
      request = .requestBlocksByRoot roots ∧ 1 ≤ roots.length ∧
        roots.length ≤ maxRequestBlocks := by
  cases request with
  | gossipBlockWithAttestation sb => exact Or.inl h
  | gossipAttestation sa => exact Or.inl h
  | requestBlocksByRoot asked =>
    unfold dispatchOutboundRequest at h
    dsimp only at h
    -- without a connected peer nothing is sent
    cases hpeer : service.getRandomConnectedPeer choice with
    | none =>
      rw [hpeer] at h
      exact Or.inl h
    | some target =>
      rw [hpeer] at h
      dsimp only [sendBlocksByRootRequest] at h
      -- requests for no block or for too many are refused
      split_ifs at h with hempty hmany
      · exact Or.inl h
      · exact Or.inl h
      · simp only [List.mem_append, List.mem_singleton, Prod.mk.injEq,
          LeanRequest.blocksByRoot.injEq] at h
        rcases h with h | ⟨-, rfl⟩
        · exact Or.inl h
        · have hpos := List.length_pos_iff.mpr hempty
          exact Or.inr ⟨rfl, by omega, by omega⟩

variable [DecidableEq PeerId]

theorem requests_connectToPeers {peers : List (Multiaddr PeerId × Bool)} :
    (service.connectToPeers peers).requests = service.requests := by
  unfold connectToPeers
  induction peers generalizing service with
  | nil => rfl
  | cons head rest ih =>
    rw [List.foldl_cons, ih]
    unfold connectToPeer
    cases peerOf head.1 with
    | none => rfl
    | some target =>
      dsimp only
      split_ifs <;> rfl

/-- An event of the swarm is answered with the request for the status at most. -/
theorem mem_requests_parseSwarmEvent {event : SwarmEvent PeerId}
    (h : (peer, LeanRequest.blocksByRoot roots) ∈ (service.parseSwarmEvent event).1.requests) :
    (peer, LeanRequest.blocksByRoot roots) ∈ service.requests := by
  cases event with
  | reqResp message =>
    have hsame : (service.handleRequestResponseEvent message).requests = service.requests :=
      requests_handleRequestResponseEvent
    rw [← hsame]
    exact h
  | connectionEstablished other isDialer =>
    -- the dialer asks for the status, which is no request for blocks
    cases isDialer with
    | false => exact h
    | true => simpa [parseSwarmEvent, sendStatusRequest, setState] using h
  | gossipBlock sb => exact h
  | gossipAttestation sa => exact h
  | connectionClosed other => exact h
  | dialing other => exact h
  | incomingConnectionError => exact h
  | outgoingConnectionError other => exact h
  | logged => exact h

/-- A request for blocks is sent when the chain task asks for 1 to `MAX_REQUEST_BLOCKS`. -/
theorem mem_requests_step {action : NetworkAction PeerId}
    (h : (peer, LeanRequest.blocksByRoot roots) ∈ (service.step action).requests) :
    (peer, LeanRequest.blocksByRoot roots) ∈ service.requests ∨
      (∃ choice, action = .outbound (.requestBlocksByRoot roots) choice) ∧
        1 ≤ roots.length ∧ roots.length ≤ maxRequestBlocks := by
  cases action with
  | connectToPeers peers =>
    rw [step, requests_connectToPeers] at h
    exact Or.inl h
  | outbound request choice =>
    rcases mem_requests_dispatch h with h | ⟨rfl, hlimits⟩
    · exact Or.inl h
    · exact Or.inr ⟨⟨choice, rfl⟩, hlimits⟩
  | swarm event => exact Or.inl (mem_requests_parseSwarmEvent h)

/-- The same over a run. -/
theorem mem_requests_foldl {actions : List (NetworkAction PeerId)}
    (h : (peer, LeanRequest.blocksByRoot roots) ∈ (actions.foldl step service).requests) :
    (peer, LeanRequest.blocksByRoot roots) ∈ service.requests ∨
      (∃ choice, .outbound (.requestBlocksByRoot roots) choice ∈ actions) ∧
        1 ≤ roots.length ∧ roots.length ≤ maxRequestBlocks := by
  induction actions generalizing service with
  | nil => exact Or.inl h
  | cons action rest ih =>
    rcases ih h with h | ⟨⟨choice, hchoice⟩, hlimits⟩
    · rcases mem_requests_step h with h | ⟨⟨choice, rfl⟩, hlimits⟩
      · exact Or.inl h
      · exact Or.inr ⟨⟨choice, List.mem_cons_self⟩, hlimits⟩
    · exact Or.inr ⟨⟨choice, List.mem_cons_of_mem _ hchoice⟩, hlimits⟩

/-- In every run, the other side reads the requests for blocks that the service sends as they
    are. -/
theorem sent_requests_read_back {lib : Encodings} (hframe : lib.FramesBack)
    {localPeerId : PeerId} {peerCount : ℕ} {actions : List (NetworkAction PeerId)}
    (hwords : ∀ asked choice, .outbound (.requestBlocksByRoot asked) choice ∈ actions →
      ∀ root ∈ asked, root < 2 ^ 256)
    (h : (peer, LeanRequest.blocksByRoot roots) ∈
      (actions.foldl step (start localPeerId peerCount)).requests) :
    (lib.encodeRequest (.blocksByRoot roots) >>= lib.decodeRequest blocksByRootProtocolV1) =
      .ok (.blocksByRoot roots) := by
  rcases mem_requests_foldl h with h | ⟨⟨choice, hchoice⟩, hmin, hmax⟩
  · simp [start] at h
  · exact hframe.request_round_trip (hwords roots choice hchoice) hmin hmax

end NetworkService

/-- A request for two blocks, sent to a peer that has connected, is read back. -/
theorem request_to_connected_peer_read_back :
    (2, LeanRequest.blocksByRoot [1, 2]) ∈ ([.swarm (.connectionEstablished 2 true),
        .outbound (.requestBlocksByRoot [1, 2]) 0].foldl NetworkService.step
      (NetworkService.start 1 0)).requests ∧
    (SampleWire.encodings.encodeRequest (.blocksByRoot [1, 2]) >>=
      SampleWire.encodings.decodeRequest blocksByRootProtocolV1) = .ok (.blocksByRoot [1, 2]) := by
  have hsent : (2, LeanRequest.blocksByRoot [1, 2]) ∈ ([.swarm (.connectionEstablished 2 true),
        .outbound (.requestBlocksByRoot [1, 2]) 0].foldl NetworkService.step
      (NetworkService.start 1 0)).requests := by decide
  refine ⟨hsent, NetworkService.sent_requests_read_back SampleWire.framesBack ?_ hsent⟩
  intro asked choice hasked root hroot
  simp only [List.mem_cons, reduceCtorEq, false_or, NetworkAction.outbound.injEq,
    OutboundP2pRequest.requestBlocksByRoot.injEq, List.not_mem_nil, or_false] at hasked
  obtain ⟨rfl, rfl⟩ := hasked
  simp only [List.mem_cons, List.not_mem_nil, or_false] at hroot
  rcases hroot with rfl | rfl <;> decide

end ConsensusClient
