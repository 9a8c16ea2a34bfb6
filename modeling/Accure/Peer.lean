import Accure.Integrate

set_option autoImplicit false

namespace Accure.Peer

-- Automerge as the server uses it: reading the two lists of a document,
-- appending an entry to one, and the sync protocol.
structure Automerge (Auto Sync Message Bytes : Type) where
  lists : Auto → Doc
  append : Auto → Operation → Auto
  start : Sync
  generate : Auto → Sync → Auto × Sync × Option Message
  receive : Auto → Sync → Message → Auto × Sync
  encode : Message → Bytes
  decode : Bytes → Option Message

structure Server (Auto Sync : Type) where
  state : State
  doc : Auto
  peerSyncStates : SiteId → Option Sync

section Handlers

variable {Auto Sync Message Bytes : Type}

def Server.generateSync (am : Automerge Auto Sync Message Bytes) (server : Server Auto Sync) (peerSite : SiteId) :
    Server Auto Sync × Option Bytes :=
  let syncState := (server.peerSyncStates peerSite).getD am.start
  let (doc, syncState, m) := am.generate server.doc syncState
  ({ server with
      doc := doc
      peerSyncStates := Function.update server.peerSyncStates peerSite (some syncState) }, m.map am.encode)

-- A message that does not decode leaves the handler by `continue`, when the
-- entry has been taken out and not put back.
def Server.receiveSync (am : Automerge Auto Sync Message Bytes) (server : Server Auto Sync) (peerSite : SiteId)
    (bytes : Bytes) : Server Auto Sync × List Trace :=
  let syncState := (server.peerSyncStates peerSite).getD am.start
  let taken := Function.update server.peerSyncStates peerSite none
  match am.decode bytes with
  | none => ({ server with peerSyncStates := taken }, [])
  | some decoded =>
      let (doc, syncState) := am.receive server.doc syncState decoded
      let (state, traces) := rebuildFromAutomerge server.state (am.lists doc)
      (⟨state, doc, Function.update taken peerSite (some syncState)⟩, traces)

end Handlers

structure Parcel (Bytes : Type) where
  number : Nat
  bytes : Bytes
deriving DecidableEq

inductive PeerMessage (Bytes : Type) where
  | hello (site : SiteId)
  | sync (parcel : Parcel Bytes)
deriving DecidableEq

def PeerMessage.parcel {Bytes : Type} : PeerMessage Bytes → Option (Parcel Bytes)
  | .hello _ => none
  | .sync parcel => some parcel

-- One end of a TCP connection with the session that runs there: the inbound
-- loop, the outbound task with the message it waits to send, the channel and
-- the writer task. `wire` is what it has written and the other end not yet read.
structure Session (Bytes : Type) where
  site : SiteId
  running : Bool
  peerSite : Option SiteId
  outbound : Bool
  sending : Option (Parcel Bytes)
  channel : List (Parcel Bytes)
  writer : Bool
  wire : List (PeerMessage Bytes)

def Session.opened {Bytes : Type} (site : SiteId) : Session Bytes where
  site := site
  running := true
  peerSite := none
  outbound := false
  sending := none
  channel := []
  writer := false
  wire := [.hello site]

abbrev ConnectionEnd := Nat × Bool

def ConnectionEnd.other (e : ConnectionEnd) : ConnectionEnd := (e.1, !e.2)

-- All servers and connections. The last two fields are ghost: what a site has
-- generated for a peer, and what a site has handed to Automerge as of a peer.
structure Cluster (Auto Sync Bytes : Type) where
  server : SiteId → Server Auto Sync
  connections : Nat
  session : ConnectionEnd → Session Bytes
  generated : SiteId → SiteId → List (Parcel Bytes)
  handed : SiteId → SiteId → List (Parcel Bytes)

section Moves

variable {Auto Sync Message Bytes : Type}

def Cluster.start (servers : SiteId → Server Auto Sync) : Cluster Auto Sync Bytes where
  server := servers
  connections := 0
  session := fun _ => { Session.opened "" with running := false, wire := [] }
  generated := fun _ _ => []
  handed := fun _ _ => []

def Cluster.put (w : Cluster Auto Sync Bytes) (e : ConnectionEnd) (session : Session Bytes) : Cluster Auto Sync Bytes :=
  { w with session := Function.update w.session e session }

def Cluster.serve (w : Cluster Auto Sync Bytes) (i : SiteId) (server : Server Auto Sync) : Cluster Auto Sync Bytes :=
  { w with server := Function.update w.server i server }

def Cluster.connect (w : Cluster Auto Sync Bytes) (i j : SiteId) : Cluster Auto Sync Bytes :=
  let opened := (w.put (w.connections, true) (.opened i)).put (w.connections, false) (.opened j)
  { opened with connections := w.connections + 1 }

def Cluster.parcel (w : Cluster Auto Sync Bytes) (e : ConnectionEnd) (peerSite : SiteId) (bytes : Bytes) : Parcel Bytes :=
  ⟨(w.generated (w.session e).site peerSite).length, bytes⟩

def push (lists : SiteId → SiteId → List (Parcel Bytes)) (i j : SiteId) (parcel : Parcel Bytes) :
    SiteId → SiteId → List (Parcel Bytes) :=
  Function.update lists i (Function.update (lists i) j (lists i j ++ [parcel]))

def Cluster.generate (am : Automerge Auto Sync Message Bytes) (w : Cluster Auto Sync Bytes) (e : ConnectionEnd)
    (peerSite : SiteId) (bytes : Bytes) : Cluster Auto Sync Bytes :=
  let session := w.session e
  let parcel := w.parcel e peerSite bytes
  let moved := (w.serve session.site ((w.server session.site).generateSync am peerSite).1).put e
    { session with sending := some parcel }
  { moved with generated := push w.generated session.site peerSite parcel }

def Cluster.receive (am : Automerge Auto Sync Message Bytes) (w : Cluster Auto Sync Bytes) (e : ConnectionEnd)
    (peerSite : SiteId) (parcel : Parcel Bytes) (rest : List (PeerMessage Bytes)) : Cluster Auto Sync Bytes :=
  let site := (w.session e).site
  let moved := (w.serve site ((w.server site).receiveSync am peerSite parcel.bytes).1).put e.other
    { w.session e.other with wire := rest }
  match am.decode parcel.bytes with
  | none => moved
  | some _ => { moved with handed := push w.handed site peerSite parcel }

-- The moves of all tasks, in any order. `may` restricts when a session generates.
-- An aborted task may still go on for a while, and a read may fail at any time.
inductive Move (am : Automerge Auto Sync Message Bytes) (may : Cluster Auto Sync Bytes → ConnectionEnd → Prop) :
    Cluster Auto Sync Bytes → Cluster Auto Sync Bytes → Prop where
  | connect (w : Cluster Auto Sync Bytes) (i j : SiteId) : Move am may w (w.connect i j)
  | updatePolicy (w : Cluster Auto Sync Bytes) (i target : SiteId) (right : Right) (effect : Effect) (p : PolicyOp)
      (s : State) (doc : Doc)
      (ok : updatePolicy (w.server i).state (am.lists (w.server i).doc) target right effect = .ok (p, s, doc)) :
      Move am may w (w.serve i { w.server i with state := s, doc := am.append (w.server i).doc (.policy p) })
  | updateDocument (w : Cluster Auto Sync Bytes) (i : SiteId) (edit : TextEdit) (d : DocOp) (s : State) (doc : Doc)
      (ok : updateDocument (w.server i).state (am.lists (w.server i).doc) edit = .ok (d, s, doc)) :
      Move am may w (w.serve i { w.server i with state := s, doc := am.append (w.server i).doc (.document d) })
  | greet (w : Cluster Auto Sync Bytes) (e : ConnectionEnd) (site : SiteId) (rest : List (PeerMessage Bytes))
      (running : (w.session e).running = true) (silent : (w.session e).peerSite = none)
      (read : (w.session e.other).wire = .hello site :: rest) :
      Move am may w ((w.put e.other { w.session e.other with wire := rest }).put e
        { w.session e with peerSite := some site, outbound := true, writer := true })
  | generate (w : Cluster Auto Sync Bytes) (e : ConnectionEnd) (peerSite : SiteId) (bytes : Bytes)
      (alive : (w.session e).outbound = true) (greeted : (w.session e).peerSite = some peerSite)
      (free : (w.session e).sending = none)
      (some_ : ((w.server (w.session e).site).generateSync am peerSite).2 = some bytes) (allowed : may w e) :
      Move am may w (w.generate am e peerSite bytes)
  | idle (w : Cluster Auto Sync Bytes) (e : ConnectionEnd) (peerSite : SiteId)
      (alive : (w.session e).outbound = true) (greeted : (w.session e).peerSite = some peerSite)
      (free : (w.session e).sending = none)
      (none_ : ((w.server (w.session e).site).generateSync am peerSite).2 = none) :
      Move am may w (w.serve (w.session e).site ((w.server (w.session e).site).generateSync am peerSite).1)
  | send (w : Cluster Auto Sync Bytes) (e : ConnectionEnd) (parcel : Parcel Bytes)
      (waiting : (w.session e).sending = some parcel) (receiver : (w.session e).writer = true)
      (room : (w.session e).channel.length < 64) :
      Move am may w (w.put e { w.session e with sending := none, channel := (w.session e).channel ++ [parcel] })
  | sendFails (w : Cluster Auto Sync Bytes) (e : ConnectionEnd) (parcel : Parcel Bytes)
      (waiting : (w.session e).sending = some parcel) (gone : (w.session e).writer = false) :
      Move am may w (w.put e { w.session e with sending := none, outbound := false })
  | write (w : Cluster Auto Sync Bytes) (e : ConnectionEnd) (parcel : Parcel Bytes) (rest : List (Parcel Bytes))
      (alive : (w.session e).writer = true) (next : (w.session e).channel = parcel :: rest) :
      Move am may w (w.put e { w.session e with channel := rest, wire := (w.session e).wire ++ [.sync parcel] })
  | writerEnds (w : Cluster Auto Sync Bytes) (e : ConnectionEnd)
      (cause : (w.session e).channel ≠ [] ∨ (w.session e).outbound = false ∨ (w.session e).running = false) :
      Move am may w (w.put e { w.session e with writer := false, channel := [] })
  | receive (w : Cluster Auto Sync Bytes) (e : ConnectionEnd) (peerSite : SiteId) (parcel : Parcel Bytes)
      (rest : List (PeerMessage Bytes)) (running : (w.session e).running = true)
      (greeted : (w.session e).peerSite = some peerSite) (read : (w.session e.other).wire = .sync parcel :: rest) :
      Move am may w (w.receive am e peerSite parcel rest)
  | ignore (w : Cluster Auto Sync Bytes) (e : ConnectionEnd) (peerSite site : SiteId) (rest : List (PeerMessage Bytes))
      (running : (w.session e).running = true) (greeted : (w.session e).peerSite = some peerSite)
      (read : (w.session e.other).wire = .hello site :: rest) :
      Move am may w (w.put e.other { w.session e.other with wire := rest })
  | readFails (w : Cluster Auto Sync Bytes) (e : ConnectionEnd) (running : (w.session e).running = true) :
      Move am may w (w.put e { w.session e with running := false })
  | outboundAborts (w : Cluster Auto Sync Bytes) (e : ConnectionEnd) (ended : (w.session e).running = false) :
      Move am may w (w.put e { w.session e with outbound := false, sending := none })

inductive Run (am : Automerge Auto Sync Message Bytes) (may : Cluster Auto Sync Bytes → ConnectionEnd → Prop)
    (servers : SiteId → Server Auto Sync) : Cluster Auto Sync Bytes → Prop where
  | start : Run am may servers (Cluster.start servers)
  | move (w next : Cluster Auto Sync Bytes) (before : Run am may servers w) (move : Move am may w next) :
      Run am may servers next

end Moves

end Accure.Peer
