import Mathlib.Data.Finset.Card
import ConsensusClient.Networking.Service

/-!
# The Table of Peers and the Open Connections

The swarm reports an event for every connection, and two connections to one peer may be open at
a time. The table of peers has one state for a peer. A closed connection sets it to
`disconnected`, also when the other connection to the peer is still open, and the peer is then
neither counted nor asked for blocks.

## Main results

* `NetworkService.connected_step`: only connection events change who is connected
* `Network.Tracks.apply`: the steps that keep the table in line with the connections
* `peers_follow_connections_iff`: the runs in which table and count follow the connections
* `open_connection_not_counted`: crossed dials, and one of the two connections is closed
-/

namespace ConsensusClient

variable {PeerId : Type}

/-- The service, with the open connections of its swarm, each by its peer. -/
structure Network (PeerId : Type) where
  service : NetworkService PeerId
  connections : List PeerId

namespace Network

/-- A new service on a swarm without connections. -/
def start (localPeerId : PeerId) (peerCount : ℕ) : Network PeerId where
  service := NetworkService.start localPeerId peerCount
  connections := []

section Runs

variable [DecidableEq PeerId]

/-- The connections after a step. -/
def connectionsAfter (net : Network PeerId) : NetworkAction PeerId → List PeerId
  | .swarm (.connectionEstablished peer _) => peer :: net.connections
  | .swarm (.connectionClosed peer) => net.connections.erase peer
  | _ => net.connections

def apply (net : Network PeerId) (action : NetworkAction PeerId) : Network PeerId where
  service := net.service.step action
  connections := net.connectionsAfter action

def run (net : Network PeerId) (actions : List (NetworkAction PeerId)) : Network PeerId :=
  actions.foldl apply net

/-- The swarm may report this: it limits the connections to a peer, and closes open ones. -/
def Allows (net : Network PeerId) : NetworkAction PeerId → Prop
  | .swarm (.connectionEstablished peer _) =>
    net.connections.count peer < maxEstablishedPerPeer
  | .swarm (.connectionClosed peer) => peer ∈ net.connections
  | _ => True

/-- No other connection to the peer of a closed connection is open. -/
def ClosesLast (net : Network PeerId) : NetworkAction PeerId → Prop
  | .swarm (.connectionClosed peer) => net.connections.count peer = 1
  | _ => True

/-- Every action of a run meets a condition on it and on the network it finds. -/
def Always (cond : Network PeerId → NetworkAction PeerId → Prop) :
    Network PeerId → List (NetworkAction PeerId) → Prop
  | _, [] => True
  | net, action :: rest => cond net action ∧ Always cond (net.apply action) rest

/-- The connected peers of the table are those with an open connection. -/
def Tracks (net : Network PeerId) : Prop :=
  ∀ peer, net.service.peerTable.lookup peer = some .connected ↔ peer ∈ net.connections

/-- The table and the count of the peers follow the open connections. -/
def Accounted (net : Network PeerId) : Prop :=
  net.Tracks ∧ net.service.peerCount = net.connections.toFinset.card

end Runs

end Network

/-- A connection was opened or closed. -/
def NetworkAction.IsConnectionEvent : NetworkAction PeerId → Prop
  | .swarm (.connectionEstablished _ _) => True
  | .swarm (.connectionClosed _) => True
  | _ => False

theorem NetworkAction.isConnectionEvent_iff {action : NetworkAction PeerId} :
    action.IsConnectionEvent ↔
      (∃ peer isDialer, action = .swarm (.connectionEstablished peer isDialer)) ∨
        ∃ peer, action = .swarm (.connectionClosed peer) := by
  unfold NetworkAction.IsConnectionEvent
  split
  · simp
  · simp
  · rename_i hopened hclosed
    simp only [false_iff, not_or, not_exists]
    exact ⟨hopened, hclosed⟩

/-! ## The table after a step -/

section Table

variable {service : NetworkService PeerId} {peer : PeerId}

theorem NetworkService.connectedPeers_nodup : service.connectedPeers.Nodup := by
  have hnodup : (service.peerTable.entries.map Sigma.fst).Nodup := service.peerTable.nodupKeys
  exact hnodup.sublist (List.filter_sublist.map _)

/-- Requests do not touch the table. -/
theorem NetworkService.dispatchOutboundRequest_peerTable {request : OutboundP2pRequest}
    {choice : ℕ} :
    (service.dispatchOutboundRequest request choice).peerTable = service.peerTable := by
  unfold NetworkService.dispatchOutboundRequest
  cases request with
  | gossipBlockWithAttestation sb => rfl
  | gossipAttestation sa => rfl
  | requestBlocksByRoot roots =>
    cases service.getRandomConnectedPeer choice with
    | none => rfl
    | some peer =>
      simp only [NetworkService.sendBlocksByRootRequest]
      split_ifs <;> rfl

theorem NetworkService.handleRequestResponseEvent_peerTable {message : ReqRespMessage PeerId} :
    (service.handleRequestResponseEvent message).peerTable = service.peerTable := by
  unfold NetworkService.handleRequestResponseEvent
  split <;> rfl

variable [DecidableEq PeerId]

theorem NetworkService.mem_connectedPeers :
    peer ∈ service.connectedPeers ↔ service.peerTable.lookup peer = some .connected := by
  simp only [NetworkService.connectedPeers, List.mem_map, List.mem_filter, decide_eq_true_eq]
  constructor
  · rintro ⟨⟨p, state⟩, ⟨hmem, rfl⟩, rfl⟩
    exact AList.lookup_eq_some_iff.mpr hmem
  · intro h
    exact ⟨⟨peer, .connected⟩, ⟨AList.lookup_eq_some_iff.mp h, rfl⟩, rfl⟩

theorem NetworkService.lookup_setState {other : PeerId} {state : ConnectionState} :
    (service.setState peer state).peerTable.lookup other =
      if other = peer then some state else service.peerTable.lookup other :=
  AList.lookup_insert_eq

/-- Dialing changes the state of no connected peer, and makes none connected. -/
theorem NetworkService.connected_connectToPeer {addr : Multiaddr PeerId} {dialed : Bool} :
    (service.connectToPeer addr dialed).peerTable.lookup peer = some .connected ↔
      service.peerTable.lookup peer = some .connected := by
  unfold NetworkService.connectToPeer
  cases NetworkService.peerOf addr with
  | none => rfl
  | some target =>
    show (if target ≠ service.localPeerId ∧
        NetworkService.mayDial (service.peerTable.lookup target) ∧ dialed then
      { service with peerTable := service.peerTable.insert target .connecting }
      else service).peerTable.lookup peer = _ ↔ _
    split_ifs with hdial
    · rw [AList.lookup_insert_eq]
      by_cases hpeer : peer = target
      · -- a connected peer is not dialed
        subst hpeer
        have hstate : service.peerTable.lookup peer ≠ some .connected := by
          intro hconnected
          have hmay := hdial.2.1
          simp [hconnected, NetworkService.mayDial] at hmay
        simp [hstate]
      · rw [if_neg hpeer]
    · rfl

theorem NetworkService.connected_connectToPeers {peers : List (Multiaddr PeerId × Bool)} :
    (service.connectToPeers peers).peerTable.lookup peer = some .connected ↔
      service.peerTable.lookup peer = some .connected := by
  unfold NetworkService.connectToPeers
  induction peers generalizing service with
  | nil => rfl
  | cons head rest ih =>
    rw [List.foldl_cons, ih]
    exact NetworkService.connected_connectToPeer

/-- Only connection events change which peers are connected. -/
theorem NetworkService.connected_step {action : NetworkAction PeerId}
    (h : ¬ action.IsConnectionEvent) :
    (service.step action).peerTable.lookup peer = some .connected ↔
      service.peerTable.lookup peer = some .connected := by
  cases action with
  | connectToPeers peers => exact NetworkService.connected_connectToPeers
  | outbound request choice =>
    simp only [NetworkService.step, NetworkService.dispatchOutboundRequest_peerTable]
  | swarm event =>
    cases event with
    | connectionEstablished _ _ => exact absurd trivial h
    | connectionClosed _ => exact absurd trivial h
    | reqResp message =>
      simp only [NetworkService.step, NetworkService.parseSwarmEvent,
        NetworkService.handleRequestResponseEvent_peerTable]
    | _ => rfl

end Table

/-! ## Runs -/

section Runs

variable [DecidableEq PeerId] {net : Network PeerId} {peer : PeerId}

/-- The table and the connections after a connection is opened. -/
theorem Network.Tracks.established (h : net.Tracks) (peer : PeerId) (isDialer : Bool) :
    (net.apply (.swarm (.connectionEstablished peer isDialer))).Tracks := by
  intro other
  have htable : (net.apply (.swarm (.connectionEstablished peer isDialer))).service.peerTable =
      (net.service.setState peer .connected).peerTable := by
    cases isDialer <;> rfl
  rw [htable, NetworkService.lookup_setState]
  show _ ↔ other ∈ peer :: net.connections
  by_cases hother : other = peer
  · simp [hother]
  · simp [hother, h other]

/-- The table and the connections after the only connection to a peer is closed. -/
theorem Network.Tracks.closed (h : net.Tracks) (hone : net.connections.count peer = 1) :
    (net.apply (.swarm (.connectionClosed peer))).Tracks := by
  intro other
  show (net.service.setState peer .disconnected).peerTable.lookup other = _ ↔
    other ∈ net.connections.erase peer
  rw [NetworkService.lookup_setState]
  by_cases hother : other = peer
  · -- none is left after it
    subst hother
    have hgone : other ∉ net.connections.erase other := by
      rw [← List.count_eq_zero, List.count_erase_self, hone]
    simp [hgone]
  · rw [if_neg hother, List.mem_erase_of_ne hother]
    exact h other

/-- A step keeps the table in line with the connections, unless it closes one of two. -/
theorem Network.Tracks.apply (h : net.Tracks) {action : NetworkAction PeerId}
    (hlast : net.ClosesLast action) : (net.apply action).Tracks := by
  by_cases hevent : action.IsConnectionEvent
  · obtain ⟨peer, isDialer, rfl⟩ | ⟨peer, rfl⟩ := NetworkAction.isConnectionEvent_iff.mp hevent
    · exact h.established peer isDialer
    · exact h.closed hlast
  · -- neither the connections nor the connected peers change
    have hconnections : (net.apply action).connections = net.connections := by
      unfold Network.apply Network.connectionsAfter
      split
      · exact absurd trivial hevent
      · exact absurd trivial hevent
      · rfl
    intro other
    rw [hconnections]
    exact (NetworkService.connected_step hevent).trans (h other)

/-- A table in line with the connections counts the peers that have one. -/
theorem Network.Tracks.card (h : net.Tracks) :
    net.service.connectedPeers.length = net.connections.toFinset.card := by
  -- no peer is in the table twice
  rw [← List.toFinset_card_of_nodup NetworkService.connectedPeers_nodup]
  congr 1
  ext other
  rw [List.mem_toFinset, List.mem_toFinset, NetworkService.mem_connectedPeers]
  exact h other

/-- A connection event recounts the connected peers. -/
theorem NetworkService.peerCount_step {service : NetworkService PeerId}
    {action : NetworkAction PeerId} (h : action.IsConnectionEvent) :
    (service.step action).peerCount = (service.step action).connectedPeers.length := by
  obtain ⟨peer, isDialer, rfl⟩ | ⟨peer, rfl⟩ := NetworkAction.isConnectionEvent_iff.mp h
  · cases isDialer <;> rfl
  · rfl

/-- A closed connection leaves the table in line only if it was the last one to its peer. -/
theorem Network.count_of_closed_tracks (hopen : peer ∈ net.connections)
    (h : (net.apply (.swarm (.connectionClosed peer))).Tracks) :
    net.connections.count peer = 1 := by
  have hstate : (net.apply (.swarm (.connectionClosed peer))).service.peerTable.lookup peer =
      some .disconnected := by
    show (net.service.setState peer .disconnected).peerTable.lookup peer = _
    rw [NetworkService.lookup_setState, if_pos rfl]
  -- the table has the peer as disconnected, so there is no other connection to it
  have hgone : peer ∉ net.connections.erase peer := by
    intro hmem
    have hconnected := (h peer).mpr hmem
    rw [hstate] at hconnected
    simp at hconnected
  have hzero := List.count_eq_zero.mpr hgone
  have hpos := List.count_pos_iff.mpr hopen
  rw [List.count_erase_self] at hzero
  omega

/-- One step from a table in line with the connections. -/
theorem Network.Tracks.accounted_iff (h : net.Tracks) {action : NetworkAction PeerId}
    (hallows : net.Allows action) :
    (action.IsConnectionEvent → (net.apply action).Accounted) ↔ net.ClosesLast action := by
  constructor
  · intro haccounted
    unfold Network.ClosesLast
    -- only a closed connection has something to show
    split
    · exact Network.count_of_closed_tracks hallows (haccounted trivial).1
    · trivial
  · intro hlast hevent
    have htracks := h.apply hlast
    exact ⟨htracks, (NetworkService.peerCount_step hevent).trans htracks.card⟩

/-- Every step of a run from a table in line with the connections. -/
theorem Network.Tracks.always_accounted_iff (h : net.Tracks)
    {actions : List (NetworkAction PeerId)} (hallows : net.Always Network.Allows actions) :
    net.Always (fun net action => action.IsConnectionEvent → (net.apply action).Accounted)
        actions ↔
      net.Always Network.ClosesLast actions := by
  induction actions generalizing net with
  | nil => exact Iff.rfl
  | cons action rest ih =>
    simp only [Network.Always, h.accounted_iff hallows.1]
    -- a step that meets the condition leaves the table in line for the rest of the run
    exact and_congr_right fun hlast => ih (h.apply hlast) hallows.2

/-- Over every run that the swarm may report, the table and the count of the peers follow the
    open connections after each connection event exactly when no connection is closed while
    another one to the same peer is open. -/
theorem peers_follow_connections_iff (localPeerId : PeerId) (peerCount : ℕ)
    {actions : List (NetworkAction PeerId)}
    (hallows : (Network.start localPeerId peerCount).Always Network.Allows actions) :
    (Network.start localPeerId peerCount).Always
        (fun net action => action.IsConnectionEvent → (net.apply action).Accounted) actions ↔
      (Network.start localPeerId peerCount).Always Network.ClosesLast actions := by
  have hstart : (Network.start localPeerId peerCount).Tracks := by
    intro peer
    simp [Network.start, NetworkService.start]
  exact hstart.always_accounted_iff hallows

end Runs

/-! ## Two connections to one peer -/

namespace Dials

/-- Peer 1 is dialed and answers, peer 2 connects by itself and is dialed as well, and the only
    connection to peer 1 is closed. -/
def twoPeers : List (NetworkAction ℕ) :=
  [.connectToPeers [([.other 4, .p2p 1], true)],
    .swarm (.connectionEstablished 1 true),
    .swarm (.connectionEstablished 2 false),
    .swarm (.connectionEstablished 2 true),
    .swarm (.connectionClosed 1)]

/-- Peer 1 dials while it is dialed, and one of the two connections is closed. -/
def crossed : List (NetworkAction ℕ) :=
  [.connectToPeers [([.other 4, .p2p 1], true)],
    .swarm (.connectionEstablished 1 false),
    .swarm (.connectionEstablished 1 true),
    .swarm (.connectionClosed 1)]

end Dials

/-- Peer 2 has two connections and is counted once, and peer 1 is counted while it has one. -/
theorem two_peers_accounted :
    (Network.start 0 0).Always
        (fun net action => action.IsConnectionEvent → (net.apply action).Accounted)
        Dials.twoPeers := by
  apply (peers_follow_connections_iff 0 0 ?_).mpr
  · simp [Dials.twoPeers, Network.Always, Network.ClosesLast, Network.apply,
      Network.connectionsAfter, Network.start]
  · simp [Dials.twoPeers, Network.Always, Network.Allows, Network.apply,
      Network.connectionsAfter, Network.start, maxEstablishedPerPeer]

/-- After crossed dials a connection to peer 1 stays open, but the table has the peer as
    disconnected and no peer is counted. -/
theorem open_connection_not_counted :
    (Network.start 0 0).Always Network.Allows Dials.crossed ∧
      ((Network.start 0 0).run Dials.crossed).connections = [1] ∧
      ((Network.start 0 0).run Dials.crossed).service.peerTable.lookup 1 = some .disconnected ∧
      ((Network.start 0 0).run Dials.crossed).service.peerCount = 0 ∧
      ¬ (Network.start 0 0).Always
        (fun net action => action.IsConnectionEvent → (net.apply action).Accounted)
        Dials.crossed := by
  have hallows : (Network.start 0 0).Always Network.Allows Dials.crossed := by
    simp [Dials.crossed, Network.Always, Network.Allows, Network.apply,
      Network.connectionsAfter, Network.start, maxEstablishedPerPeer]
  have hopen : ((Network.start 0 0).run Dials.crossed).connections = [1] := by decide
  have hstate : ((Network.start 0 0).run Dials.crossed).service.peerTable.lookup 1 =
      some .disconnected := by decide
  refine ⟨hallows, hopen, hstate, by decide, fun haccounted => ?_⟩
  -- the last event is the closed connection
  have hlast : ((Network.start 0 0).run Dials.crossed).Accounted := haccounted.2.2.2.1 trivial
  have hconnected := (hlast.1 1).mpr (by simp [hopen])
  rw [hstate] at hconnected
  simp at hconnected

end ConsensusClient
