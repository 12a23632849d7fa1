import ConsensusClient.Node.Network

/-!
# Clients on the Wire

A client of `src/main.rs` runs the chain task and the network service, which are joined by two
channels. Clients exchange bytes: what one publishes on a topic is decoded by the next, and a
response is read by the codec of its protocol. Every run of such clients is one of the network of
chain tasks that pass messages to each other, so what holds there holds of the clients. No block
travels in a response, since every request for blocks is answered with none, so a client that has
missed a block stores nothing that descends from it.

## Main results

* `clientNetwork_traces`: messages for the chain tasks come from chain tasks
* `clientNetwork_chain_run`: the chain tasks of the clients run as those of the network
* `clients_refine_chain_network`: both, for clients that exchange bytes
* `stored_ancestors_came_by_gossip`: by which ways the blocks of a client reached it
-/

namespace ConsensusClient

/-! ## Clients -/

/-- The two tasks of a client, with what the swarm was given to publish. -/
structure Client (PeerId : Type) where
  node : Node
  network : NetworkService PeerId
  published : List (TopicHash × Bytes)

/-- What the tasks of a client wake up for. A channel is read at a position: the blocks of a
    response are sent by a task of their own and may come later. -/
inductive ClientEvent (PeerId : Type) where
  | tick (now later : ℕ) (orders : IterationOrders)
  /-- The chain task takes a message. -/
  | take (position now : ℕ)
  /-- The network service takes a request. -/
  | dispatch (position choice : ℕ)
  | connect (peers : List (Multiaddr PeerId × Bool))
  | swarm (event : SwarmEvent PeerId)

/-- One round of one of the two tasks. -/
def Client.step {PeerId : Type} [DecidableEq PeerId] (E : Env) (lib : GossipEncodings)
    (fork : String) (vs : Option ValidatorService) (client : Client PeerId) :
    ClientEvent PeerId → Client PeerId
  | .tick now later orders =>
    { client with node := client.node.step E vs (.tick now later orders) }
  | .take position now =>
    match client.network.chainMessages[position]? with
    | some message => { client with node := client.node.step E vs (.message message now) }
    | none => client
  | .dispatch position choice =>
    match client.node.outbound[position]? with
    | some request =>
      { client with
        network := client.network.step (.outbound request choice)
        published := client.published ++ (publish lib (getTopics fork) request).toList }
    | none => client
  | .connect peers => { client with network := client.network.step (.connectToPeers peers) }
  | .swarm event => { client with network := client.network.step (.swarm event) }

/-- What a round can do. -/
inductive Client.Round {PeerId : Type} [DecidableEq PeerId] (E : Env) (lib : GossipEncodings)
    (fork : String) (vs : Option ValidatorService) (client : Client PeerId) :
    ClientEvent PeerId → Client PeerId → Prop
  /-- There is nothing at the position. -/
  | idle (event : ClientEvent PeerId) : Round E lib fork vs client event client
  | chain (event : ClientEvent PeerId) (chainEvent : ChainEvent)
      (h : ∀ message now, chainEvent = .message message now →
        message ∈ client.network.chainMessages) :
      Round E lib fork vs client event
        { client with node := client.node.step E vs chainEvent }
  | dispatched (event : ClientEvent PeerId) (request : OutboundP2pRequest) (choice : ℕ)
      (h : request ∈ client.node.outbound) :
      Round E lib fork vs client event
        { client with
          network := client.network.step (.outbound request choice)
          published := client.published ++ (publish lib (getTopics fork) request).toList }
  | connected (event : ClientEvent PeerId) (peers : List (Multiaddr PeerId × Bool)) :
      Round E lib fork vs client event
        { client with network := client.network.step (.connectToPeers peers) }
  | swarm (event : SwarmEvent PeerId) :
      Round E lib fork vs client (.swarm event)
        { client with network := client.network.step (.swarm event) }

theorem Client.step_round {PeerId : Type} [DecidableEq PeerId] (E : Env) (lib : GossipEncodings)
    (fork : String) (vs : Option ValidatorService) (client : Client PeerId)
    (event : ClientEvent PeerId) :
    client.Round E lib fork vs event (client.step E lib fork vs event) := by
  cases event with
  | tick now later orders => exact .chain _ (.tick now later orders) (by simp)
  | take position now =>
    simp only [Client.step]
    -- the channel may be shorter than the position
    cases hmessage : client.network.chainMessages[position]? with
    | none => exact .idle _
    | some message =>
      refine .chain _ (.message message now) ?_
      rintro _ _ ⟨⟩
      exact List.mem_of_getElem? hmessage
  | dispatch position choice =>
    simp only [Client.step]
    cases hrequest : client.node.outbound[position]? with
    | none => exact .idle _
    | some request => exact .dispatched _ request choice (List.mem_of_getElem? hrequest)
  | connect peers => exact .connected _ peers
  | swarm event => exact .swarm event

/-! ## What clients send to each other -/

/-- What an event of the swarm brings from another client. -/
inductive Carried where
  | gossip (message : GossipsubMessage)
  | response (response : LeanResponse)

/-- What the event brings; a request may come from anywhere. -/
def SwarmEvent.carried {PeerId : Type} : SwarmEvent PeerId → Option Carried
  | .gossipBlock sb => some (.gossip (.block sb))
  | .gossipAttestation sa => some (.gossip (.attestation sa))
  | .reqResp (.response _ response) => some (.response response)
  | _ => none

/-- Only a block of gossip brings one. -/
theorem SwarmEvent.eq_gossipBlock {PeerId : Type} {event : SwarmEvent PeerId}
    {sb : SignedBlockWithAttestation} (h : event.carried = some (.gossip (.block sb))) :
    event = .gossipBlock sb := by
  cases event with
  | gossipBlock sb' => simpa [SwarmEvent.carried] using h
  | reqResp message => cases message <;> simp [SwarmEvent.carried] at h
  | _ => simp [SwarmEvent.carried] at h

/-- The messages that it makes for the chain task. -/
def Carried.chainMessages : Carried → List ChainMessage
  | .gossip message => [message.chainMessage]
  | .response (.blocksByRoot blocks) => blocks.map fun sb => .processBlock sb false
  | .response _ => []

/-- The protocol of the request that is answered. -/
def LeanResponse.protocol : LeanResponse → String
  | .status _ => statusProtocolV1
  | _ => blocksByRootProtocolV1

/-- What another client reads of the bytes that this one has sent. -/
def Client.Sends {PeerId : Type} (lib : GossipEncodings) (debug : DebugForms)
    (client : Client PeerId) : Carried → Prop
  | .gossip message => ∃ p ∈ client.published,
      GossipsubMessage.decode lib debug p.1 p.2 = .ok message
  | .response response => ∃ r ∈ client.network.responses,
      (lib.encodeResponse r >>= lib.decodeResponse r.protocol) = .ok response

/-- Clients that run this code. Bytes are delayed, lost, repeated and reordered, and connections
    and requests come at any time. -/
def clientNetwork {ι PeerId : Type} [DecidableEq PeerId] (E : Env) (lib : GossipEncodings)
    (debug : DebugForms) (fork : ι → String) (service : ι → Option ValidatorService) :
    Parties ι (Client PeerId) (ClientEvent PeerId) Carried where
  step := fun i client event => client.step E lib (fork i) (service i) event
  delivers
    | .swarm event => event.carried
    | _ => none
  sent := fun client => {x | client.Sends lib debug x}

/-- SSZ decodes what it encodes. -/
structure GossipEncodings.SszReads (lib : GossipEncodings) : Prop where
  block : ∀ sb bytes, lib.blockToSsz sb = .ok bytes → lib.blockFromSsz bytes = .ok sb
  attestation : ∀ sa bytes, lib.attestationToSsz sa = .ok bytes →
    lib.attestationFromSsz bytes = .ok sa

/-! ## Gossip -/

section Gossip

variable {lib : GossipEncodings} {debug : DebugForms} {fork : String}

/-- What is published is the encoding of a message. -/
theorem exists_of_publish (hssz : lib.SszReads) {request : OutboundP2pRequest}
    {p : TopicHash × Bytes} (h : publish lib (getTopics fork) request = some p) :
    ∃ message : GossipsubMessage, request = message.request ∧ message.EncodedAs lib p.2 ∧
      p.1 = GossipsubTopic.toTopicHash ⟨fork, message.kind⟩ := by
  -- a block and a vote are published if SSZ encodes them
  cases request with
  | gossipBlockWithAttestation sb =>
    cases hbytes : lib.blockToSsz sb with
    | error e => simp [publish, hbytes, Except.toOption] at h
    | ok bytes =>
      have hencoded : (GossipsubMessage.block sb).EncodedAs lib bytes :=
        ⟨hbytes, hssz.block sb bytes hbytes⟩
      obtain rfl := Option.some.inj (h.symm.trans (GossipsubMessage.publish_request hencoded))
      exact ⟨.block sb, rfl, hencoded, rfl⟩
  | gossipAttestation sa =>
    cases hbytes : lib.attestationToSsz sa with
    | error e => simp [publish, hbytes, Except.toOption] at h
    | ok bytes =>
      have hencoded : (GossipsubMessage.attestation sa).EncodedAs lib bytes :=
        ⟨hbytes, hssz.attestation sa bytes hbytes⟩
      obtain rfl := Option.some.inj (h.symm.trans (GossipsubMessage.publish_request hencoded))
      exact ⟨.attestation sa, rfl, hencoded, rfl⟩
  | requestBlocksByRoot roots => simp [publish] at h

/-- Who decodes a published message reads what the sender was asked to publish. -/
theorem request_of_decode (hssz : lib.SszReads) {request : OutboundP2pRequest}
    {p : TopicHash × Bytes} (h : publish lib (getTopics fork) request = some p)
    {message : GossipsubMessage}
    (hdecode : GossipsubMessage.decode lib debug p.1 p.2 = .ok message) :
    message.request = request := by
  obtain ⟨sent, rfl, hencoded, htopic⟩ := exists_of_publish hssz h
  rw [htopic] at hdecode
  by_cases hfork : '/' ∈ fork.toList
  · exact absurd hdecode (GossipsubMessage.decode_ne_ok hfork)
  · rw [GossipsubMessage.decode_toTopicHash hencoded hfork] at hdecode
    rw [Except.ok.inj hdecode]

end Gossip

/-! ## Responses -/

section Responses

variable {lib : GossipEncodings} {PeerId : Type} [DecidableEq PeerId]
  {service : NetworkService PeerId}

/-- The answers that a service gives: the default status, and no block. -/
def LeanResponse.IsAnswer (r : LeanResponse) : Prop :=
  r = .status Status.default ∨ r = .blocksByRoot []

/-- Nothing for the chain task is read of an answer. -/
theorem LeanResponse.IsAnswer.carries_nothing {r response : LeanResponse} (h : r.IsAnswer)
    (hread : (lib.encodeResponse r >>= lib.decodeResponse r.protocol) = .ok response) :
    (Carried.response response).chainMessages = [] := by
  obtain ⟨bytes, hbytes, hread⟩ := bind_eq_ok.mp hread
  rcases h with rfl | rfl
  · -- the codec of the status protocol reads a status
    have hstatus : Mentions statusProtocolV1 "status" := by decide
    rw [LeanResponse.protocol, Encodings.decodeResponse] at hread
    simp only [hstatus, if_true] at hread
    split_ifs at hread with hempty
    · obtain rfl := Except.ok.inj hread
      rfl
    · obtain ⟨payload, -, hread⟩ := bind_eq_ok.mp hread
      obtain ⟨status, -, hread⟩ := bind_eq_ok.mp hread
      obtain rfl := Except.ok.inj hread
      rfl
  · -- an empty list is written as no bytes, and these are read as an empty response
    obtain rfl : [] = bytes := Except.ok.inj hbytes
    obtain rfl := Except.ok.inj hread
    rfl

/-- What a round of the service adds for the chain task is what its event brings. -/
theorem NetworkService.chainMessages_swarm (event : SwarmEvent PeerId) :
    (service.step (.swarm event)).chainMessages =
      service.chainMessages ++ (event.carried.map Carried.chainMessages).getD [] := by
  cases event with
  | gossipBlock sb => rfl
  | gossipAttestation sa => rfl
  | reqResp message =>
    cases message with
    -- the blocks of a response are sent to the chain task
    | response peer response => cases response <;> simp [step, parseSwarmEvent,
        handleRequestResponseEvent, SwarmEvent.carried, Carried.chainMessages]
    | request peer request => cases request <;> simp [step, parseSwarmEvent,
        handleRequestResponseEvent, SwarmEvent.carried]
    | notice peer => simp [step, parseSwarmEvent, handleRequestResponseEvent, SwarmEvent.carried]
  | connectionEstablished peer isDialer =>
    cases isDialer <;> simp [step, parseSwarmEvent, setState, sendStatusRequest,
      SwarmEvent.carried]
  | connectionClosed peer => simp [step, parseSwarmEvent, setState, SwarmEvent.carried]
  | dialing peer => simp [step, parseSwarmEvent, SwarmEvent.carried]
  | incomingConnectionError => simp [step, parseSwarmEvent, SwarmEvent.carried]
  | outgoingConnectionError peer => simp [step, parseSwarmEvent, SwarmEvent.carried]
  | logged => simp [step, parseSwarmEvent, SwarmEvent.carried]

/-- What it adds to the responses are answers. -/
theorem NetworkService.responses_swarm (event : SwarmEvent PeerId) :
    ∀ r ∈ (service.step (.swarm event)).responses, r ∈ service.responses ∨ r.IsAnswer := by
  intro r hr
  cases event with
  | reqResp message =>
    cases message with
    | response peer response => cases response <;> exact Or.inl hr
    | notice peer => exact Or.inl hr
    | request peer request =>
      cases request with
      | status status =>
        exact (List.mem_append.mp hr).imp_right fun h => Or.inl (List.mem_singleton.mp h)
      | blocksByRoot roots =>
        exact (List.mem_append.mp hr).imp_right fun h => Or.inr (List.mem_singleton.mp h)
  | connectionEstablished peer isDialer => cases isDialer <;> exact Or.inl hr
  | _ => exact Or.inl hr

/-- Other rounds leave both alone. -/
theorem NetworkService.frame_outbound (request : OutboundP2pRequest) (choice : ℕ) :
    (service.step (.outbound request choice)).chainMessages = service.chainMessages ∧
      (service.step (.outbound request choice)).responses = service.responses := by
  cases request with
  | requestBlocksByRoot roots =>
    simp only [step, dispatchOutboundRequest, sendBlocksByRootRequest]
    split
    · split_ifs <;> exact ⟨rfl, rfl⟩
    · exact ⟨rfl, rfl⟩
  | _ => exact ⟨rfl, rfl⟩

theorem NetworkService.frame_connect (peers : List (Multiaddr PeerId × Bool)) :
    (service.step (.connectToPeers peers)).chainMessages = service.chainMessages ∧
      (service.step (.connectToPeers peers)).responses = service.responses := by
  show (service.connectToPeers peers).chainMessages = service.chainMessages ∧
    (service.connectToPeers peers).responses = service.responses
  unfold connectToPeers
  induction peers generalizing service with
  | nil => exact ⟨rfl, rfl⟩
  | cons head rest ih =>
    have hhead : (service.connectToPeer head.1 head.2).chainMessages = service.chainMessages ∧
        (service.connectToPeer head.1 head.2).responses = service.responses := by
      unfold connectToPeer
      split
      · exact ⟨rfl, rfl⟩
      · split_ifs <;> exact ⟨rfl, rfl⟩
    rw [List.foldl_cons, ← hhead.1, ← hhead.2]
    exact ih

end Responses

/-! ## Where the messages of a channel come from -/

section Traces

variable {E : Env} {lib : GossipEncodings} {debug : DebugForms} {ι PeerId : Type}
  [DecidableEq PeerId]

/-- The messages for the chain task that a client has, or that others read of what it sent. -/
def Client.held (lib : GossipEncodings) (debug : DebugForms) (client : Client PeerId) :
    Set ChainMessage :=
  {m | m ∈ client.network.chainMessages ∨ ∃ x, client.Sends lib debug x ∧ m ∈ x.chainMessages}

/-- The messages that the chain task of a client has asked to be gossiped. -/
def Client.asked (client : Client PeerId) : Set ChainMessage :=
  {m | ∃ message : GossipsubMessage, m = message.chainMessage ∧
    message.request ∈ client.node.outbound}

/-- A round of the chain task takes back no request. -/
theorem Node.step_outbound {vs : Option ValidatorService} {node : Node} {event : ChainEvent}
    {request : OutboundP2pRequest} (h : request ∈ node.outbound) :
    request ∈ (node.step E vs event).outbound := by
  refine Node.Act.step (P := fun n => request ∈ n.outbound) (fun n n' hact hn => ?_) h
  cases hact with
  | heard sa shouldGossip after hcall => exact List.mem_append_left _ hn
  | sent orders proposerIndex proposal sb later store hmay hsb hcall =>
    exact List.mem_append_left _ hn
  | delivered sb shouldGossip now after hevent hcall => exact List.mem_append_left _ hn
  | _ => exact hn

theorem Client.Round.asked_subset {fork : String} {vs : Option ValidatorService}
    {client client' : Client PeerId} {event : ClientEvent PeerId}
    (h : client.Round E lib fork vs event client') : client.asked ⊆ client'.asked := by
  rintro m ⟨message, rfl, hmem⟩
  refine ⟨message, rfl, ?_⟩
  cases h with
  | chain event chainEvent hchain => exact Node.step_outbound hmem
  | _ => exact hmem

omit [DecidableEq PeerId] in
/-- A client whose channel and responses are those of another one, but for new answers, and that
    has published only what it was asked to. -/
theorem Client.held_subset {client client' : Client PeerId} {known : Set ChainMessage}
    (h : client.held lib debug ⊆ known)
    (hchannel : ∀ m ∈ client'.network.chainMessages, m ∈ client.network.chainMessages ∨ m ∈ known)
    (hresponses : ∀ r ∈ client'.network.responses, r ∈ client.network.responses ∨ r.IsAnswer)
    (hpublished : ∀ p ∈ client'.published, p ∈ client.published ∨ ∀ message,
      GossipsubMessage.decode lib debug p.1 p.2 = .ok message →
        message.request ∈ client'.node.outbound) :
    client'.held lib debug ⊆ known ∪ client'.asked := by
  rintro m (hm | ⟨x, hx, hm⟩)
  · rcases hchannel m hm with hold | hknown
    · exact Or.inl (h (Or.inl hold))
    · exact Or.inl hknown
  cases x with
  | gossip message =>
    obtain ⟨p, hp, hdecode⟩ := hx
    rcases hpublished p hp with hold | hnew
    · exact Or.inl (h (Or.inr ⟨.gossip message, ⟨p, hold, hdecode⟩, hm⟩))
    · exact Or.inr ⟨message, List.mem_singleton.mp hm, hnew message hdecode⟩
  | response response =>
    obtain ⟨r, hr, hread⟩ := hx
    rcases hresponses r hr with hold | hanswer
    · exact Or.inl (h (Or.inr ⟨.response response, ⟨r, hold, hread⟩, hm⟩))
    · rw [hanswer.carries_nothing hread] at hm
      exact absurd hm (by simp)

/-- What a round adds to the channel is what its event brings. -/
theorem Client.Round.mem_channel {fork : String} {vs : Option ValidatorService}
    {client client' : Client PeerId} {event : ClientEvent PeerId}
    (h : client.Round E lib fork vs event client') {m : ChainMessage}
    (hm : m ∈ client'.network.chainMessages) :
    m ∈ client.network.chainMessages ∨
      ∃ e x, event = .swarm e ∧ e.carried = some x ∧ m ∈ x.chainMessages := by
  cases h with
  | idle event => exact Or.inl hm
  | chain event chainEvent hchain => exact Or.inl hm
  | dispatched event request choice hrequest =>
    exact Or.inl ((client.network.frame_outbound request choice).1 ▸ hm)
  | connected event peers => exact Or.inl ((client.network.frame_connect peers).1 ▸ hm)
  | swarm event =>
    rw [NetworkService.chainMessages_swarm] at hm
    refine (List.mem_append.mp hm).imp_right fun hnew => ?_
    cases hcarried : event.carried with
    | none => simp [hcarried] at hnew
    | some x => exact ⟨event, x, rfl, hcarried, by simpa [hcarried] using hnew⟩

/-- What it adds to the responses are answers. -/
theorem Client.Round.mem_responses {fork : String} {vs : Option ValidatorService}
    {client client' : Client PeerId} {event : ClientEvent PeerId}
    (h : client.Round E lib fork vs event client') :
    ∀ r ∈ client'.network.responses, r ∈ client.network.responses ∨ r.IsAnswer := by
  intro r hr
  cases h with
  | idle event => exact Or.inl hr
  | chain event chainEvent hchain => exact Or.inl hr
  | dispatched event request choice hrequest =>
    exact Or.inl ((client.network.frame_outbound request choice).2 ▸ hr)
  | connected event peers => exact Or.inl ((client.network.frame_connect peers).2 ▸ hr)
  | swarm event => exact client.network.responses_swarm event r hr

/-- What it publishes is read as a request of the chain task. -/
theorem Client.Round.mem_published (hssz : lib.SszReads) {fork : String}
    {vs : Option ValidatorService} {client client' : Client PeerId} {event : ClientEvent PeerId}
    (h : client.Round E lib fork vs event client') :
    ∀ p ∈ client'.published, p ∈ client.published ∨ ∀ message,
      GossipsubMessage.decode lib debug p.1 p.2 = .ok message →
        message.request ∈ client'.node.outbound := by
  intro p hp
  cases h with
  | dispatched event request choice hrequest =>
    refine (List.mem_append.mp hp).imp_right fun hnew message hdecode => ?_
    rw [request_of_decode hssz (Option.mem_toList.mp hnew) hdecode]
    exact hrequest
  | _ => exact Or.inl hp

/-- A client holds after a round what is known, if it did before and is told what is known. -/
theorem Client.Round.held_subset (hssz : lib.SszReads) {fork : String}
    {vs : Option ValidatorService} {client client' : Client PeerId} {event : ClientEvent PeerId}
    {known : Set ChainMessage} (h : client.Round E lib fork vs event client')
    (hheld : client.held lib debug ⊆ known)
    (htold : ∀ e, event = .swarm e → ∀ x ∈ e.carried, ∀ m ∈ x.chainMessages, m ∈ known) :
    client'.held lib debug ⊆ known ∪ client'.asked := by
  refine Client.held_subset hheld (fun m hm => ?_) h.mem_responses (h.mem_published hssz)
  refine (h.mem_channel hm).imp_right ?_
  rintro ⟨e, x, he, hx, hm⟩
  exact htold e he x hx m hm

/-- Messages for the chain tasks of clients come from the chain tasks of clients. -/
theorem clientNetwork_traces (E : Env) (hssz : lib.SszReads) (fork : ι → String)
    (service : ι → Option ValidatorService) :
    (clientNetwork E lib debug fork service : Parties ι (Client PeerId) _ _).Traces
      (Client.held lib debug) Client.asked fun x => {m | m ∈ x.chainMessages} where
  made_mono := fun i client event =>
    (client.step_round E lib (fork i) (service i) event).asked_subset
  held_step := by
    intro i client event known hheld htold
    refine (client.step_round E lib (fork i) (service i) event).held_subset hssz hheld ?_
    rintro e rfl x hx m hm
    exact htold x hx hm
  sent_held := fun client x hx m hm => Or.inr ⟨x, hx, hm⟩

end Traces

/-! ## Refinement -/

section Refinement

variable {E : Env} {g : State} {lib : GossipEncodings} {debug : DebugForms} {ι PeerId : Type}
  [DecidableEq ι] [DecidableEq PeerId] {fork : ι → String}
  {service : ι → Option ValidatorService} {anchor : SignedBlockWithAttestation}
  {config : ι → Config} {peer : ι → PeerId} {log : List (ι × ClientEvent PeerId)}
  {net : ι → Client PeerId}

omit [DecidableEq ι] in
/-- A round leaves the chain task alone, or is one of its rounds with a message of its channel. -/
theorem Client.Round.node_cases {vs : Option ValidatorService} {client client' : Client PeerId}
    {event : ClientEvent PeerId} {topicFork : String}
    (h : client.Round E lib topicFork vs event client') :
    client'.node = client.node ∨ ∃ chainEvent, (∀ message now,
        chainEvent = .message message now → message ∈ client.network.chainMessages) ∧
      client'.node = client.node.step E vs chainEvent := by
  cases h with
  | chain event chainEvent hchain => exact Or.inr ⟨chainEvent, hchain, rfl⟩
  | _ => exact Or.inl rfl

/-- All clients start with one genesis block. -/
def clientsTogether (E : Env) (g : State) (anchor : SignedBlockWithAttestation)
    (config : ι → Config) (peer : ι → PeerId) : ι → Client PeerId :=
  fun i => ⟨startTogether E g anchor config i, NetworkService.start (peer i) 0, []⟩

/-- Each message in the channel of a chain task was sent by some chain task. -/
theorem clientNetwork_channel (hssz : lib.SszReads)
    (hnet : (clientNetwork E lib debug fork service).Run (clientsTogether E g anchor config peer)
      log net) (i : ι) :
    ∀ m ∈ (net i).network.chainMessages, ∃ message : GossipsubMessage,
      m = message.chainMessage ∧ ∃ j, message.request ∈ (net j).node.outbound := by
  intro m hm
  have hstart : ∀ i, (clientsTogether E g anchor config peer i).held lib debug ⊆ ∅ := by
    rintro i m (hm | ⟨x, hx, hm⟩)
    · exact absurd hm (by simp [clientsTogether, NetworkService.start])
    · cases x with
      | gossip message => exact absurd hx (by simp [Client.Sends, clientsTogether])
      | response response =>
        exact absurd hx (by simp [Client.Sends, clientsTogether, NetworkService.start])
  have htraced := hnet.traced (clientNetwork_traces E hssz fork service) hstart i (Or.inl hm)
  rw [Set.empty_union, Set.mem_iUnion] at htraced
  obtain ⟨j, message, rfl, hmem⟩ := htraced
  exact ⟨message, rfl, j, hmem⟩

/-- The chain tasks of the clients run as those of the network. -/
theorem clientNetwork_chain_run (hssz : lib.SszReads)
    (hnet : (clientNetwork E lib debug fork service).Run (clientsTogether E g anchor config peer)
      log net) :
    ∃ log', (chainNetwork E service).Run (startTogether E g anchor config) log'
      fun i => (net i).node := by
  refine hnet.simulates (f := Client.node) fun log net i event hrun henabled => ?_
  refine ((net i).step_round E lib (fork i) (service i) event).node_cases.imp_right ?_
  rintro ⟨chainEvent, hchannel, heq⟩
  refine ⟨chainEvent, ?_, heq⟩
  -- a message of the channel was sent, so the chain task there may get it
  intro delivered hdelivered
  cases chainEvent with
  | tick now later orders => exact absurd hdelivered (by simp [chainNetwork, ChainEvent.gossip])
  | message m now =>
    obtain ⟨message, rfl, hsent⟩ := clientNetwork_channel hssz hrun i m (hchannel m now rfl)
    obtain rfl : message = delivered := by
      cases message <;> exact Option.some.inj hdelivered
    exact hsent

/-- Every run of clients that exchange bytes is one of chain tasks that pass messages. Each message
    in the channel of a chain task is a block or a vote that some chain task has sent, and none is
    a block of a response. -/
theorem clients_refine_chain_network (hssz : lib.SszReads)
    (hnet : (clientNetwork E lib debug fork service).Run (clientsTogether E g anchor config peer)
      log net) :
    (∃ log', (chainNetwork E service).Run (startTogether E g anchor config) log'
      fun i => (net i).node) ∧
    ∀ i, ∀ m ∈ (net i).network.chainMessages, ∃ message : GossipsubMessage,
      m = message.chainMessage ∧ ∃ j, message.request ∈ (net j).node.outbound :=
  ⟨clientNetwork_chain_run hssz hnet, clientNetwork_channel hssz hnet⟩

/-! ## How blocks reach a client -/

theorem ImportInv.mono {Checked Checked' : SignedBlockWithAttestation → Prop} {root : H256}
    {node : Node} (inv : ImportInv E root Checked node) (h : ∀ sb, Checked sb → Checked' sb) :
    ImportInv E root Checked' node where
  log := ⟨fun sb hsb => h sb (inv.log.checked sb hsb), inv.log.parents, inv.log.origin⟩
  queue := fun sb hsb hacc => h sb (inv.queue sb hsb hacc)

/-- The blocks of a client came by gossip: those that its chain task has imported and those that
    wait in the queue and in the channel. Its responses are answers. -/
structure Client.Gossiped (E : Env) (root : H256) (events : List (ClientEvent PeerId))
    (client : Client PeerId) : Prop where
  node : ImportInv E root (fun sb => .swarm (.gossipBlock sb) ∈ events) client.node
  channel : ∀ sb shouldGossip, .processBlock sb shouldGossip ∈ client.network.chainMessages →
    .swarm (.gossipBlock sb) ∈ events
  answers : ∀ r ∈ client.network.responses, r.IsAnswer

omit [DecidableEq ι] in
/-- A round keeps this, if the response that it gets is an answer that was read. -/
theorem Client.Gossiped.round {root : H256} {events : List (ClientEvent PeerId)}
    {client client' : Client PeerId} {vs : Option ValidatorService} {topicFork : String}
    {event : ClientEvent PeerId} (h : client.Gossiped E root events)
    (hround : client.Round E lib topicFork vs event client')
    (hresponse : ∀ e response, event = .swarm e → e.carried = some (.response response) →
      (Carried.response response).chainMessages = []) :
    client'.Gossiped E root (events ++ [event]) where
  node := by
    have hmono : ∀ node, ImportInv E root (fun sb => .swarm (.gossipBlock sb) ∈ events) node →
        ImportInv E root (fun sb => .swarm (.gossipBlock sb) ∈ events ++ [event]) node :=
      fun node inv => inv.mono fun sb hsb => List.mem_append_left _ hsb
    rcases hround.node_cases with hsame | ⟨chainEvent, hchain, hstep⟩
    · rw [hsame]
      exact hmono _ h.node
    · rw [hstep]
      refine hmono _ (h.node.step ?_)
      -- the chain task takes a block of its channel
      cases chainEvent with
      | tick now later orders => trivial
      | message message now =>
        cases message with
        | processBlock sb shouldGossip =>
          exact fun _ => h.channel sb shouldGossip (hchain _ now rfl)
        | processAttestation sa shouldGossip => trivial
  channel := by
    intro sb shouldGossip hsb
    rcases hround.mem_channel hsb with hold | ⟨e, x, rfl, hcarried, hnew⟩
    · exact List.mem_append_left _ (h.channel sb shouldGossip hold)
    cases x with
    | response response =>
      -- a response has no block
      rw [hresponse e response rfl hcarried] at hnew
      exact absurd hnew (by simp)
    | gossip message =>
      have hmessage : .processBlock sb shouldGossip = message.chainMessage :=
        List.mem_singleton.mp hnew
      cases message with
      | attestation sa => exact absurd hmessage (by simp [GossipsubMessage.chainMessage])
      | block sb' =>
        obtain ⟨rfl, -⟩ := ChainMessage.processBlock.inj hmessage
        rw [SwarmEvent.eq_gossipBlock hcarried]
        exact List.mem_append_right _ (List.mem_singleton.mpr rfl)
  answers := fun r hr => (hround.mem_responses r hr).elim (h.answers r) id

/-- The blocks of every client came by gossip. -/
theorem clientNetwork_gossiped
    (hnet : (clientNetwork E lib debug fork service).Run (clientsTogether E g anchor config peer)
      log net) (i : ι) :
    (net i).Gossiped E (anchor.block.hashTreeRoot E) (Parties.eventsAt log i) := by
  refine hnet.invariant
    (I := fun _ events client => client.Gossiped E (anchor.block.hashTreeRoot E) events) ?_ ?_ i
  · intro i
    exact {
      node := ImportInv.start E _ g anchor (config i)
      channel := fun sb shouldGossip hsb => absurd hsb (by
        simp [clientsTogether, NetworkService.start])
      answers := fun r hr => absurd hr (by simp [clientsTogether, NetworkService.start]) }
  · intro log net i event _ hbefore henabled
    refine (hbefore i).round ((net i).step_round E lib (fork i) (service i) event) ?_
    rintro e response rfl hcarried
    -- a client that keeps this has sent the response
    obtain ⟨j, r, hr, hread⟩ := henabled (.response response) hcarried
    exact ((hbefore j).answers r hr).carries_nothing hread

/-- A block that a client stores and each ancestor of it is the genesis block, was produced by the
    client or came to it by gossip. So a client that has missed a block never stores one that
    descends from it. -/
theorem stored_ancestors_came_by_gossip {time : ℕ} {validators : List Validator}
    (hE : E.HashIdeal) (hg : generateGenesisWithValidators E time validators = .ok g)
    (hanchor : anchor.block = genesisBlock E g) (hssz : lib.SszReads)
    (hnet : (clientNetwork E lib debug fork service).Run (clientsTogether E g anchor config peer)
      log net) {i : ι} {a root : H256} (ha : a ∈ (net i).node.store.blocks) (hroot : root ≠ 0)
    (h : (net i).node.store.Descends a root) :
    root = genesisRoot E g ∨ root ∈ (net i).node.produced ∨
      ∃ sb, ClientEvent.swarm (.gossipBlock sb) ∈ Parties.eventsAt log i ∧
        sb.block.hashTreeRoot E = root := by
  obtain ⟨log', hrun⟩ := clientNetwork_chain_run hssz hnet
  have hanchored : (net i).node.store.Anchored E g :=
    (chainNetwork_node hrun i).anchored hg hE hanchor
  have hmem := hanchored.sound.tree.ancestor_mem hg hE ha hroot h
  have hgossiped := (clientNetwork_gossiped hnet i).node.log
  rcases hgossiped.origin root hmem with hgenesis | hproduced | ⟨sb, hsb, rfl⟩
  · left
    rw [hgenesis, hanchor]
    rfl
  · exact Or.inr (Or.inl hproduced)
  · exact Or.inr (Or.inr ⟨sb, hgossiped.checked sb hsb, rfl⟩)

end Refinement

/-! ## A block of slot 2 on its way -/

namespace PairChain

open SampleWire

/-- A checkpoint in SSZ. -/
def checkpointBytes (c : Checkpoint) : Bytes := c.root.asBytes ++ uint 8 c.slot

/-- The SSZ bytes of the block at slot 2. -/
def ownBytes : Bytes :=
  uint 4 8 ++ uint 4 236 ++
    -- the offset of the block, and the proposer's attestation
    uint 4 140 ++ uint 8 0 ++ uint 8 data.slot ++ checkpointBytes data.head ++
    checkpointBytes data.target ++ checkpointBytes data.source ++
    -- the block with the offset of its body, and the empty body
    uint 8 2 ++ uint 8 0 ++ H256.asBytes 1 ++ H256.asBytes 2 ++ uint 4 84 ++ uint 4 4 ++
    -- the offset of the empty list of proofs, and the proposer's signature
    uint 4 3116 ++ uint 3112 own.signature.proposerSignature

/-- SSZ on this block. -/
def wire : GossipEncodings where
  toEncodings := { SampleWire.encodings with
    blockToSsz := fun sb => if sb = own then .ok ownBytes else .error sszError
    blockFromSsz := fun bytes => if bytes = ownBytes then .ok own else .error sszError }
  attestationToSsz := fun _ => .error sszError
  attestationFromSsz := fun _ => .error sszError

theorem wire_sszReads : wire.SszReads where
  block := by
    intro sb bytes h
    simp only [wire] at h ⊢
    split_ifs at h with hsb
    · obtain rfl := Except.ok.inj h
      rw [if_pos rfl, hsb]
  attestation := fun sa bytes h => absurd h (by simp [wire])

theorem own_encodedAs : (GossipsubMessage.block own).EncodedAs wire ownBytes := by
  have hto : wire.blockToSsz own = .ok ownBytes := by simp [wire]
  exact ⟨hto, wire_sszReads.block own ownBytes hto⟩

/-- The topic of the blocks. -/
def blockTopic : TopicHash := GossipsubTopic.toTopicHash ⟨"devnet0", .block⟩

theorem own_decoded :
    GossipsubMessage.decode wire .quoted blockTopic ownBytes = .ok (.block own) := by
  have hfork : '/' ∉ "devnet0".toList := by decide
  have hdecode : ∀ debug, GossipsubMessage.decode wire debug
      (GossipsubTopic.toTopicHash ⟨"devnet0", (GossipsubMessage.block own).kind⟩) ownBytes =
        .ok (.block own) :=
    fun debug => GossipsubMessage.decode_toTopicHash own_encodedAs hfork
  exact hdecode .quoted

/-- The two clients after some events. -/
def clientsAfter (log : List (Bool × ClientEvent Bool)) : Bool → Client Bool :=
  (clientNetwork env wire .quoted (fun _ => "devnet0") services).after
    (clientsTogether env genesis (Sample.block 2 0 0 1 []) (fun _ => { genesisTime := 0 }) id) log

/-- The block is proposed, published, received and taken. -/
def wireLog : List (Bool × ClientEvent Bool) :=
  [(true, .tick 8 8 .lastFirst), (true, .dispatch 0 0), (false, .swarm (.gossipBlock own)),
    (false, .take 0 8)]

theorem clientsAfter_published :
    (clientsAfter (wireLog.take 2) true).published = [(blockTopic, ownBytes)] := by
  have hout : (clientsAfter (wireLog.take 1) true).node.outbound =
      [.gossipBlockWithAttestation own] := by decide +kernel
  have hstep : clientsAfter (wireLog.take 2) true = (clientsAfter (wireLog.take 1) true).step env
      wire "devnet0" (services true) (.dispatch 0 0) := rfl
  have hpublish : publish wire (getTopics "devnet0") (.gossipBlockWithAttestation own) =
      some (blockTopic, ownBytes) := GossipsubMessage.publish_request own_encodedAs
  have hnone : (clientsAfter (wireLog.take 1) true).published = [] := rfl
  rw [hstep]
  simp only [Client.step, hout, List.getElem?_cons_zero, hpublish, hnone]
  rfl

/-- The first client sends the block once it is published. -/
theorem own_sent :
    (clientsAfter (wireLog.take 2) true).Sends wire .quoted (.gossip (.block own)) := by
  refine ⟨(blockTopic, ownBytes), ?_, own_decoded⟩
  rw [clientsAfter_published]
  exact List.mem_singleton.mpr rfl

theorem wireLog_run : (clientNetwork env wire .quoted (fun _ => "devnet0") services).Run
    (clientsAfter []) wireLog (clientsAfter wireLog) := by
  have hstart : (clientNetwork env wire .quoted (fun _ => "devnet0") services).Run
      (clientsAfter []) [] (clientsAfter []) := .start
  have htick := hstart.act_after true (.tick 8 8 .lastFirst)
    (by simp [Parties.Enabled, clientNetwork])
  have hdispatch := htick.act_after true (.dispatch 0 0) (by simp [Parties.Enabled, clientNetwork])
  have hgossip := hdispatch.act_after false (.swarm (.gossipBlock own)) (by
    rintro message ⟨⟩
    exact ⟨true, own_sent⟩)
  exact hgossip.act_after false (.take 0 8) (by simp [Parties.Enabled, clientNetwork])

end PairChain

/-- The block of slot 2 reaches the other client as bytes, and the run is one of chain tasks. -/
theorem block_crosses_the_wire :
    2 ∈ (PairChain.clientsAfter PairChain.wireLog false).node.store.blocks ∧
      ∃ log', (chainNetwork PairChain.env PairChain.services).Run PairChain.together log'
        fun i => (PairChain.clientsAfter PairChain.wireLog i).node :=
  ⟨by decide +kernel, (clients_refine_chain_network PairChain.wire_sszReads
    PairChain.wireLog_run).1⟩

/-- The other client stores the block of slot 2 because it came by gossip. -/
theorem stored_block_came_by_gossip :
    2 ∈ (PairChain.clientsAfter PairChain.wireLog false).node.store.blocks ∧
      ∃ sb, ClientEvent.swarm (.gossipBlock sb) ∈ Parties.eventsAt PairChain.wireLog false ∧
        sb.block.hashTreeRoot PairChain.env = 2 := by
  have hstored : 2 ∈ (PairChain.clientsAfter PairChain.wireLog false).node.store.blocks := by
    decide +kernel
  have hcases := stored_ancestors_came_by_gossip (Env.tabulated_hashIdeal _) PairChain.genesis_eq
    PairChain.anchor_eq PairChain.wire_sszReads PairChain.wireLog_run hstored (by decide) .refl
  refine ⟨hstored, (hcases.resolve_left ?_).resolve_left ?_⟩ <;> decide +kernel

end ConsensusClient
