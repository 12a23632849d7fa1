import ConsensusClient.Networking.ReqResp
import ConsensusClient.Node.ChainTask

/-!
# The Network Service

`NetworkService` of `networking/src/network/service.rs`: the table of peers and the messages
between the swarm and the chain task. The swarm is third-party code. What it reports and whether
it takes a dial are inputs here, and what it is asked to send is logged.
-/

namespace ConsensusClient

/-- `ConnectionState` -/
inductive ConnectionState where
  | disconnected
  | connecting
  | connected
  | disconnecting
  deriving DecidableEq

/-- A part of a `Multiaddr`: the id of a peer, or something else with its code. -/
inductive Protocol (PeerId : Type) where
  | p2p (peer : PeerId)
  | other (code : ℕ)
  deriving DecidableEq

/-- `Multiaddr` -/
abbrev Multiaddr (PeerId : Type) := List (Protocol PeerId)

/-- `NetworkEvent` -/
inductive NetworkEvent (PeerId : Type) where
  | peerConnectedIncoming (peer : PeerId)
  | peerConnectedOutgoing (peer : PeerId)
  | peerDisconnected (peer : PeerId)
  | status (peer : PeerId)
  | ping (peer : PeerId)
  | metaData (peer : PeerId)
  | disconnectPeer (peer : PeerId)
  deriving DecidableEq

/-- `ReqRespMessage`, with its failures and acknowledgements, which are only logged, in one. -/
inductive ReqRespMessage (PeerId : Type) where
  | response (peer : PeerId) (response : LeanResponse)
  | request (peer : PeerId) (request : LeanRequest)
  | notice (peer : PeerId)

/-- `SwarmEvent`. The events that are only logged are in one. -/
inductive SwarmEvent (PeerId : Type) where
  | gossipBlock (sb : SignedBlockWithAttestation)
  | gossipAttestation (sa : SignedAttestation)
  | reqResp (message : ReqRespMessage PeerId)
  | connectionEstablished (peer : PeerId) (isDialer : Bool)
  | connectionClosed (peer : PeerId)
  | dialing (peer : Option PeerId)
  | incomingConnectionError
  | outgoingConnectionError (peer : Option PeerId)
  | logged

/-- The variables of `NetworkService`, and what it hands over. -/
structure NetworkService (PeerId : Type) where
  localPeerId : PeerId
  peerTable : HashMap PeerId ConnectionState
  peerCount : ℕ
  /-- The requests given to the swarm. -/
  requests : List (PeerId × LeanRequest)
  /-- The responses given to the swarm. -/
  responses : List LeanResponse
  /-- The messages sent to the chain task. -/
  chainMessages : List ChainMessage

/-- `with_max_established_per_peer` of `build_behaviour` -/
def maxEstablishedPerPeer : ℕ := 2

namespace NetworkService

variable {PeerId : Type} [DecidableEq PeerId]

/-- A new service: `peer_count` is shared with its caller and keeps the value it has. -/
def start (localPeerId : PeerId) (peerCount : ℕ) : NetworkService PeerId where
  localPeerId := localPeerId
  peerTable := ∅
  peerCount := peerCount
  requests := []
  responses := []
  chainMessages := []

/-! ## Requests -/

/-- `send_status_request` -/
def sendStatusRequest (service : NetworkService PeerId) (peer : PeerId) : NetworkService PeerId :=
  { service with requests := service.requests ++ [(peer, .status Status.default)] }

/-- `send_blocks_by_root_request` -/
def sendBlocksByRootRequest (service : NetworkService PeerId) (peer : PeerId)
    (roots : List H256) : NetworkService PeerId :=
  if roots = [] then service
  -- a request over the limit is dropped with a warning
  else if roots.length > maxRequestBlocks then service
  else { service with requests := service.requests ++ [(peer, .blocksByRoot roots)] }

/-- The peers that the table has as connected, in its iteration order. -/
def connectedPeers (service : NetworkService PeerId) : List PeerId :=
  (service.peerTable.entries.filter fun e => e.2 = .connected).map Sigma.fst

/-- `get_random_connected_peer`, where `choice` is the random number. -/
def getRandomConnectedPeer (service : NetworkService PeerId) (choice : ℕ) : Option PeerId :=
  let peers := service.connectedPeers
  if peers = [] then none else peers[choice % peers.length]?

/-- `dispatch_outbound_request`. Gossip is published by the swarm. -/
def dispatchOutboundRequest (service : NetworkService PeerId) (request : OutboundP2pRequest)
    (choice : ℕ) : NetworkService PeerId :=
  match request with
  | .gossipBlockWithAttestation _ => service
  | .gossipAttestation _ => service
  | .requestBlocksByRoot roots =>
    match service.getRandomConnectedPeer choice with
    | some peer => service.sendBlocksByRootRequest peer roots
    | none => service

/-! ## Dialing -/

/-- The peer id in an address: its first `P2p` part. -/
def peerOf : Multiaddr PeerId → Option PeerId
  | [] => none
  | .p2p peer :: _ => some peer
  | .other _ :: rest => peerOf rest

/-- The states in which a peer is dialed. -/
def mayDial : Option ConnectionState → Bool
  | some .disconnected => true
  | some .connecting => true
  | none => true
  | _ => false

/-- One round of `connect_to_peers`; `dialed` says whether the swarm takes the dial. -/
def connectToPeer (service : NetworkService PeerId) (addr : Multiaddr PeerId) (dialed : Bool) :
    NetworkService PeerId :=
  match peerOf addr with
  | none => service
  | some peer =>
    -- a dial that fails leaves the table as it is
    if peer ≠ service.localPeerId ∧ mayDial (service.peerTable.lookup peer) ∧ dialed then
      { service with peerTable := service.peerTable.insert peer .connecting }
    else service

/-- `connect_to_peers` -/
def connectToPeers (service : NetworkService PeerId) (peers : List (Multiaddr PeerId × Bool)) :
    NetworkService PeerId :=
  peers.foldl (fun service peer => service.connectToPeer peer.1 peer.2) service

/-! ## Events of the swarm -/

/-- The new state of a peer, and the count of the connected ones after it. -/
def setState (service : NetworkService PeerId) (peer : PeerId) (state : ConnectionState) :
    NetworkService PeerId :=
  let service := { service with peerTable := service.peerTable.insert peer state }
  { service with peerCount := service.connectedPeers.length }

/-- `handle_request_response_event` -/
def handleRequestResponseEvent (service : NetworkService PeerId) :
    ReqRespMessage PeerId → NetworkService PeerId
  | .response _ (.blocksByRoot blocks) =>
    -- blocks that were asked for are not gossiped again
    { service with
      chainMessages := service.chainMessages ++ blocks.map fun sb => .processBlock sb false }
  | .response _ _ => service
  | .request _ (.status _) =>
    { service with responses := service.responses ++ [.status Status.default] }
  | .request _ (.blocksByRoot _) =>
    -- the store is not asked yet, and the answer is empty
    { service with responses := service.responses ++ [.blocksByRoot []] }
  | .notice _ => service

/-- `parse_swarm_event` -/
def parseSwarmEvent (service : NetworkService PeerId) :
    SwarmEvent PeerId → NetworkService PeerId × Option (NetworkEvent PeerId)
  | .gossipBlock sb =>
    ({ service with chainMessages := service.chainMessages ++ [.processBlock sb true] }, none)
  | .gossipAttestation sa =>
    ({ service with chainMessages := service.chainMessages ++ [.processAttestation sa true] },
      none)
  | .reqResp message => (service.handleRequestResponseEvent message, none)
  | .connectionEstablished peer isDialer =>
    -- the side that dialed starts the handshake
    let service := service.setState peer .connected
    (if isDialer then service.sendStatusRequest peer else service, none)
  | .connectionClosed peer =>
    -- how many connections to the peer are left is in the event, but it is not read
    (service.setState peer .disconnected, some (.peerDisconnected peer))
  | .dialing peer => (service, peer.map .peerConnectedOutgoing)
  | .incomingConnectionError => (service, none)
  -- a failed dial leaves the peer as connecting
  | .outgoingConnectionError _ => (service, none)
  | .logged => (service, none)

end NetworkService

/-- What the loop of `start` wakes up for: addresses to connect to (the bootnodes every 30
    seconds, or a discovered peer), a request of the chain task, or an event of the swarm. -/
inductive NetworkAction (PeerId : Type) where
  | connectToPeers (peers : List (Multiaddr PeerId × Bool))
  | outbound (request : OutboundP2pRequest) (choice : ℕ)
  | swarm (event : SwarmEvent PeerId)

/-- One round of the loop of `start`. -/
def NetworkService.step {PeerId : Type} [DecidableEq PeerId] (service : NetworkService PeerId) :
    NetworkAction PeerId → NetworkService PeerId
  | .connectToPeers peers => service.connectToPeers peers
  | .outbound request choice => service.dispatchOutboundRequest request choice
  | .swarm event => (service.parseSwarmEvent event).1

end ConsensusClient
