import ConsensusClient.Networking.Service
import ConsensusClient.Networking.Topic

/-!
# Gossip Messages

The way of a block or a vote from one node to the next: `publish_to_topic` of the network
service, `GossipsubMessage::decode` of `gossipsub/message.rs` and the handler of gossip events.
The swarm delivers what was published. A fork name with a slash in it makes a topic with too many
parts, and then nothing that is published arrives.

## Main results

* `GossipsubMessage.decode_toTopicHash`: when a message is decoded on its topic
* `gossip_reaches_chain`: what is published arrives as it was sent, or not at all
-/

namespace ConsensusClient

/-- The encodings with those of a signed attestation. -/
structure GossipEncodings extends Encodings where
  attestationToSsz : SignedAttestation → Except SszError Bytes
  attestationFromSsz : Bytes → Except SszError SignedAttestation

/-- `GossipsubMessage` -/
inductive GossipsubMessage where
  | block (sb : SignedBlockWithAttestation)
  | attestation (sa : SignedAttestation)

/-- `Debug` of `GossipsubKind` -/
def GossipsubKind.debug : GossipsubKind → String
  | .block => "Block"
  | .attestation => "Attestation"

variable (lib : GossipEncodings) (debug : DebugForms)

/-! ## Sending and receiving -/

/-- `publish_to_topic`: the name and the data that the swarm is given. -/
def publishToTopic (topics : List GossipsubTopic) (kind : GossipsubKind) (data : Bytes) :
    Except String (TopicHash × Bytes) :=
  match topics.find? fun topic => topic.kind = kind with
  | some topic => .ok (⟨topic.intoString⟩, data)
  | none => .error ("Missing gossipsub topic for kind " ++ kind.debug)

/-- What `dispatch_outbound_request` publishes. Its errors are logged. -/
def publish (topics : List GossipsubTopic) : OutboundP2pRequest → Option (TopicHash × Bytes)
  | .gossipBlockWithAttestation sb => do
    let bytes ← (lib.blockToSsz sb).toOption
    (publishToTopic topics .block bytes).toOption
  | .gossipAttestation sa => do
    let bytes ← (lib.attestationToSsz sa).toOption
    (publishToTopic topics .attestation bytes).toOption
  | .requestBlocksByRoot _ => none

/-- `GossipsubMessage::decode` -/
def GossipsubMessage.decode (topic : TopicHash) (data : Bytes) :
    Except String GossipsubMessage := do
  let decoded ← GossipsubTopic.decode debug topic
  match decoded.kind with
  | .block =>
    let sb ← (lib.blockFromSsz data).mapError SszError.debug
    return .block sb
  | .attestation =>
    let sa ← (lib.attestationFromSsz data).mapError SszError.debug
    return .attestation sa

/-- What `handle_gossipsub_event` makes of a message. One that is not decoded is logged. -/
def SwarmEvent.ofMessage (PeerId : Type) (topic : TopicHash) (data : Bytes) :
    SwarmEvent PeerId :=
  match GossipsubMessage.decode lib debug topic data with
  | .ok (.block sb) => .gossipBlock sb
  | .ok (.attestation sa) => .gossipAttestation sa
  | .error _ => .logged

/-! ## From node to node -/

namespace GossipsubMessage

/-- The kind of topic that the message is for. -/
def kind : GossipsubMessage → GossipsubKind
  | .block _ => .block
  | .attestation _ => .attestation

/-- What the chain task of the sender asks for. -/
def request : GossipsubMessage → OutboundP2pRequest
  | .block sb => .gossipBlockWithAttestation sb
  | .attestation sa => .gossipAttestation sa

/-- What the chain task of the receiver is sent. -/
def chainMessage : GossipsubMessage → ChainMessage
  | .block sb => .processBlock sb true
  | .attestation sa => .processAttestation sa true

/-- SSZ encodes the message as these bytes, and decodes them as the message. -/
def EncodedAs : GossipsubMessage → Bytes → Prop
  | .block sb, bytes => lib.blockToSsz sb = .ok bytes ∧ lib.blockFromSsz bytes = .ok sb
  | .attestation sa, bytes =>
    lib.attestationToSsz sa = .ok bytes ∧ lib.attestationFromSsz bytes = .ok sa

variable {lib debug}

theorem publish_request {fork : String} {message : GossipsubMessage} {bytes : Bytes}
    (h : message.EncodedAs lib bytes) :
    publish lib (getTopics fork) message.request =
      some (GossipsubTopic.toTopicHash ⟨fork, message.kind⟩, bytes) := by
  rw [GossipsubTopic.toTopicHash_eq]
  cases message with
  | block sb => simp [request, publish, h.1, Except.toOption, publishToTopic, getTopics, kind,
      GossipsubTopic.intoString]
  | attestation sa => simp [request, publish, h.1, Except.toOption, publishToTopic, getTopics,
      kind, GossipsubTopic.intoString]

/-- The message is decoded on its topic if the name of the topic can be read. -/
theorem decode_toTopicHash {fork : String} {message : GossipsubMessage} {bytes : Bytes}
    (h : message.EncodedAs lib bytes) (hfork : '/' ∉ fork.toList) :
    GossipsubMessage.decode lib debug (GossipsubTopic.toTopicHash ⟨fork, message.kind⟩) bytes =
      .ok message := by
  have htopic : GossipsubTopic.decode debug (GossipsubTopic.toTopicHash ⟨fork, message.kind⟩) =
      .ok ⟨fork, message.kind⟩ := GossipsubTopic.decode_toTopicHash_iff.mpr hfork
  unfold GossipsubMessage.decode
  rw [htopic, ok_bind]
  cases message with
  | block sb =>
    have hback : lib.blockFromSsz bytes = .ok sb := h.2
    simp [kind, hback, Except.mapError]
  | attestation sa =>
    have hback : lib.attestationFromSsz bytes = .ok sa := h.2
    simp [kind, hback, Except.mapError]

/-- Nothing is decoded on a topic whose fork has a slash. -/
theorem decode_ne_ok {topic : GossipsubTopic} (hfork : '/' ∈ topic.fork.toList)
    {message : GossipsubMessage} {bytes : Bytes} :
    GossipsubMessage.decode lib debug topic.toTopicHash bytes ≠ .ok message := by
  intro h
  obtain ⟨read, hread, -⟩ := bind_eq_ok.mp h
  obtain rfl := GossipsubTopic.eq_of_decode_toTopicHash hread
  exact GossipsubTopic.decode_toTopicHash_iff.mp hread hfork

end GossipsubMessage

variable {lib debug}

/-- What one node publishes reaches the chain task of the next one as it was sent, unless the
    fork of the topics has a slash: then nothing does. -/
theorem gossip_reaches_chain {PeerId : Type} [DecidableEq PeerId] {message : GossipsubMessage}
    {bytes : Bytes} (h : message.EncodedAs lib bytes) (fork : String)
    (service : NetworkService PeerId) :
    ∃ topic data, publish lib (getTopics fork) message.request = some (topic, data) ∧
      (service.parseSwarmEvent (.ofMessage lib debug PeerId topic data)).1.chainMessages =
        if '/' ∈ fork.toList then service.chainMessages
        else service.chainMessages ++ [message.chainMessage] := by
  refine ⟨_, _, GossipsubMessage.publish_request h, ?_⟩
  split_ifs with hfork
  · have hlogged : SwarmEvent.ofMessage lib debug PeerId
        (GossipsubTopic.toTopicHash ⟨fork, message.kind⟩) bytes = .logged := by
      unfold SwarmEvent.ofMessage
      cases hdecode : GossipsubMessage.decode lib debug
          (GossipsubTopic.toTopicHash ⟨fork, message.kind⟩) bytes with
      | error e => rfl
      | ok read => exact absurd hdecode (GossipsubMessage.decode_ne_ok hfork)
    rw [hlogged]
    rfl
  · unfold SwarmEvent.ofMessage
    rw [GossipsubMessage.decode_toTopicHash h hfork]
    cases message with
    | block sb => rfl
    | attestation sa => rfl

/-- The sample encodings, with no attestation that can be encoded. -/
def SampleWire.gossipEncodings : GossipEncodings where
  toEncodings := SampleWire.encodings
  attestationToSsz := fun _ => .error SampleWire.sszError
  attestationFromSsz := fun _ => .error SampleWire.sszError

/-- A block reaches the chain task on the topics of one network, and not on those whose fork is
    written with a slash. -/
theorem block_reaches_chain_without_slash :
    (∃ topic data, publish SampleWire.gossipEncodings (getTopics "devnet0")
        (.gossipBlockWithAttestation (SampleWire.block 1)) = some (topic, data) ∧
      ((NetworkService.start 1 0).parseSwarmEvent (.ofMessage SampleWire.gossipEncodings .quoted ℕ
        topic data)).1.chainMessages = [.processBlock (SampleWire.block 1) true]) ∧
    ∃ topic data, publish SampleWire.gossipEncodings (getTopics "devnet/0")
        (.gossipBlockWithAttestation (SampleWire.block 1)) = some (topic, data) ∧
      ((NetworkService.start 1 0).parseSwarmEvent (.ofMessage SampleWire.gossipEncodings .quoted ℕ
        topic data)).1.chainMessages = [] := by
  have hencoded : (GossipsubMessage.block (SampleWire.block 1)).EncodedAs
      SampleWire.gossipEncodings (SampleWire.blockBytes 1) := by
    constructor
    · simp [SampleWire.gossipEncodings, SampleWire.encodings, SampleWire.blockToSsz]
    · simp [SampleWire.gossipEncodings, SampleWire.encodings, SampleWire.blockFromSsz]
  exact ⟨gossip_reaches_chain hencoded "devnet0" (NetworkService.start 1 0),
    gossip_reaches_chain hencoded "devnet/0" (NetworkService.start 1 0)⟩

end ConsensusClient
