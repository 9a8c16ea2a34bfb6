import Accure.Handle
import Accure.Library.Sections
import Accure.Sessions

set_option autoImplicit false

namespace Accure.Peer

open Sections

inductive ServerLock where
  | state
  | doc
deriving DecidableEq

inductive Request where
  | edit (edit : TextEdit)
  | change (target : SiteId) (right : Right) (effect : Effect)

def Request.right : Request → Right
  | .edit _ => .write
  | .change _ _ _ => .admin

def Request.refusal : Request → String
  | .edit _ => "local site lacks Write right"
  | .change _ _ _ => "local site lacks Admin right"

def Request.key (s : State) (request : Request) : TupleKey :=
  match request with
  | .edit _ => TupleKey.document s.me
  | .change target right _ => TupleKey.policy ⟨target, right⟩

def Request.op (s : State) (n : Nat) (request : Request) : Operation :=
  match request with
  | .edit e => .document { dot := ⟨s.me, n⟩, deps := currentTopLevelDeps s ⟨s.me, .write⟩, edit := e }
  | .change target right effect => .policy
      { dot := ⟨s.me, n⟩
        target := target
        right := right
        effect := effect
        deps := currentTopLevelDeps s ⟨target, right⟩
        lastDotSeen := lastDotForWriteTuple s target
        missingDots := deriveMissingDots s target (lastDotForWriteTuple s target) }

-- The scopes in which the server's tasks hold locks: the outbound and the inbound
-- task of a session, a command of a client, and build_snapshot.
inductive Scope (Bytes : Type) where
  | generate (peerSite : SiteId)
  | receive (peerSite : SiteId) (bytes : Bytes)
  | update (request : Request)
  | snapshot

inductive Local (Sync Message Bytes : Type) where
  | empty
  | syncState (syncState : Sync)
  | generated (syncState : Sync) (m : Option Message)
  | m (m : Option Message)
  | msg (msg : Option Bytes)
  | traces (traces : List Trace)
  | may
  | n (n : Nat)
  | op (op : Operation)
  | res (error : Option String)
  | document (document : String)
  | policy (document : String) (policy : List (SiteId × Right × Bool))
  | snapshot (snapshot : Snapshot)

structure Shared (Task Auto Sync Message Bytes : Type) where
  server : Server Auto Sync
  locals : Task → Local Sync Message Bytes

section Scopes

variable {Task Auto Sync Message Bytes : Type} [DecidableEq Task]

def Shared.sets (m : Shared Task Auto Sync Message Bytes) (t : Task) (server : Server Auto Sync)
    (now : Local Sync Message Bytes) : Shared Task Auto Sync Message Bytes :=
  ⟨server, Function.update m.locals t now⟩

variable (am : Automerge Auto Sync Message Bytes) (keys : (SiteId → Option Sync) → OrderedSet SiteId) (t : Task)

def removeSync (peerSite : SiteId) (m : Shared Task Auto Sync Message Bytes) : Shared Task Auto Sync Message Bytes :=
  m.sets t { m.server with peerSyncStates := Function.update m.server.peerSyncStates peerSite none }
    (.syncState ((m.server.peerSyncStates peerSite).getD am.start))

def generateMessage (m : Shared Task Auto Sync Message Bytes) : Shared Task Auto Sync Message Bytes :=
  match m.locals t with
  | .syncState syncState =>
      let (doc, syncState, message) := am.generate m.server.doc syncState
      m.sets t { m.server with doc := doc } (.generated syncState message)
  | _ => m

def insertSync (peerSite : SiteId) (m : Shared Task Auto Sync Message Bytes) : Shared Task Auto Sync Message Bytes :=
  match m.locals t with
  | .generated syncState message =>
      m.sets t { m.server with peerSyncStates := Function.update m.server.peerSyncStates peerSite (some syncState) } (.m message)
  | .syncState syncState =>
      m.sets t { m.server with peerSyncStates := Function.update m.server.peerSyncStates peerSite (some syncState) } .empty
  | _ => m

def encodeMessage (m : Shared Task Auto Sync Message Bytes) : Shared Task Auto Sync Message Bytes :=
  match m.locals t with
  | .m message => m.sets t m.server (.msg (message.map am.encode))
  | _ => m

def receiveMessage (decoded : Message) (m : Shared Task Auto Sync Message Bytes) : Shared Task Auto Sync Message Bytes :=
  match m.locals t with
  | .syncState syncState =>
      let (doc, syncState) := am.receive m.server.doc syncState decoded
      m.sets t { m.server with doc := doc } (.syncState syncState)
  | _ => m

def rebuild (m : Shared Task Auto Sync Message Bytes) : Shared Task Auto Sync Message Bytes :=
  let (state, traces) := rebuildFromAutomerge m.server.state (am.lists m.server.doc)
  m.sets t { m.server with state := state } (.traces traces)

-- The early continue drops the sync state.
def giveUp (m : Shared Task Auto Sync Message Bytes) : Shared Task Auto Sync Message Bytes := m.sets t m.server (.traces [])

def check (request : Request) (m : Shared Task Auto Sync Message Bytes) : Shared Task Auto Sync Message Bytes :=
  m.sets t m.server (if !eval m.server.state m.server.state.me request.right then .res (some request.refusal) else .may)

def allocate (request : Request) (m : Shared Task Auto Sync Message Bytes) : Shared Task Auto Sync Message Bytes :=
  match m.locals t with
  | .may =>
      let (n, state) := m.server.state.allocN (request.key m.server.state)
      m.sets t { m.server with state := state } (.n n)
  | _ => m

def makeOp (request : Request) (m : Shared Task Auto Sync Message Bytes) : Shared Task Auto Sync Message Bytes :=
  match m.locals t with
  | .n n => m.sets t m.server (.op (request.op m.server.state n))
  | _ => m

def appendOp (m : Shared Task Auto Sync Message Bytes) : Shared Task Auto Sync Message Bytes :=
  match m.locals t with
  | .op op => m.sets t { m.server with doc := am.append m.server.doc op } (.op op)
  | _ => m

def effectOp (m : Shared Task Auto Sync Message Bytes) : Shared Task Auto Sync Message Bytes :=
  match m.locals t with
  | .op op => m.sets t { m.server with state := m.server.state.integrate op } (.res none)
  | _ => m

def compensate (m : Shared Task Auto Sync Message Bytes) : Shared Task Auto Sync Message Bytes :=
  m.sets t m.server (.document (currentText m.server.state))

def evaluate (m : Shared Task Auto Sync Message Bytes) : Shared Task Auto Sync Message Bytes :=
  match m.locals t with
  | .document document => m.sets t m.server (.policy document ((knownSites m.server.state).elems.flatMap fun site =>
      [Right.admin, .read, .write].map fun right => (site, right, eval m.server.state site right)))
  | _ => m

def assemble (m : Shared Task Auto Sync Message Bytes) : Shared Task Auto Sync Message Bytes :=
  match m.locals t with
  | .policy document policy => m.sets t m.server (.snapshot
      ⟨m.server.state.me, document, policy, m.server.state.log.length, (keys m.server.peerSyncStates).elems⟩)
  | _ => m

def Scope.accesses : Scope Bytes → List (Shared Task Auto Sync Message Bytes → Shared Task Auto Sync Message Bytes)
  | .generate peerSite => [removeSync am t peerSite, generateMessage am t, insertSync t peerSite, encodeMessage am t]
  | .receive peerSite bytes =>
      match am.decode bytes with
      | none => [removeSync am t peerSite, giveUp t]
      | some decoded => [removeSync am t peerSite, receiveMessage am t decoded, insertSync t peerSite, rebuild am t]
  | .update request => [check t request, allocate t request, makeOp t request, appendOp am t, effectOp t]
  | .snapshot => [compensate t, evaluate t, assemble keys t]

-- Each takes the state first. build_snapshot does not take the document.
def Scope.others : Scope Bytes → List ServerLock
  | .snapshot => []
  | _ => [.doc]

def serverCode (Task : Type) [DecidableEq Task] :
    Code Task (Scope Bytes) ServerLock (Shared Task Auto Sync Message Bytes) where
  gate := .state
  others scope := scope.others
  apart scope := by cases scope <;> simp [Scope.others]
  changes t scope := scope.accesses am keys t

def Server.host (server : Server Auto Sync) : Host := ⟨server.state, am.lists server.doc, keys server.peerSyncStates⟩

def Server.update (server : Server Auto Sync) : Request → Server Auto Sync × Option String
  | .edit edit =>
      match updateDocument server.state (am.lists server.doc) edit with
      | .error e => (server, some e)
      | .ok (d, s, _) => ({ server with state := s, doc := am.append server.doc (.document d) }, none)
  | .change target right effect =>
      match updatePolicy server.state (am.lists server.doc) target right effect with
      | .error e => (server, some e)
      | .ok (p, s, _) => ({ server with state := s, doc := am.append server.doc (.policy p) }, none)

def Scope.effect (scope : Scope Bytes) (m : Shared Task Auto Sync Message Bytes) : Shared Task Auto Sync Message Bytes :=
  match scope with
  | .generate peerSite =>
      let (server, msg) := m.server.generateSync am peerSite
      m.sets t server (.msg msg)
  | .receive peerSite bytes =>
      let (server, traces) := m.server.receiveSync am peerSite bytes
      m.sets t server (.traces traces)
  | .update request =>
      let (server, error) := m.server.update am request
      m.sets t server (.res error)
  | .snapshot => m.sets t m.server (.snapshot (m.server.host am keys).buildSnapshot)

@[simp] theorem sets_local (m : Shared Task Auto Sync Message Bytes) (server : Server Auto Sync)
    (now : Local Sync Message Bytes) : (m.sets t server now).locals t = now := Function.update_self _ _ _

@[simp] theorem sets_server (m : Shared Task Auto Sync Message Bytes) (server : Server Auto Sync)
    (now : Local Sync Message Bytes) : (m.sets t server now).server = server := rfl

@[simp] theorem sets_again (m : Shared Task Auto Sync Message Bytes) (server next : Server Auto Sync)
    (now later : Local Sync Message Bytes) : (m.sets t server now).sets t next later = m.sets t next later := by
  rw [Shared.sets, Shared.sets, Shared.sets, Function.update_idem]

theorem generate_whole (peerSite : SiteId) (m : Shared Task Auto Sync Message Bytes) :
    run (Scope.accesses am keys t (.generate peerSite)) m = Scope.effect am keys t (.generate peerSite) m := by
  simp [run, Scope.accesses, Scope.effect, removeSync, generateMessage, insertSync, encodeMessage, Server.generateSync]

theorem receive_whole (peerSite : SiteId) (bytes : Bytes) (m : Shared Task Auto Sync Message Bytes) :
    run (Scope.accesses am keys t (.receive peerSite bytes)) m = Scope.effect am keys t (.receive peerSite bytes) m := by
  cases decoded : am.decode bytes with
  | none => simp [run, Scope.accesses, Scope.effect, removeSync, giveUp, Server.receiveSync, decoded]
  | some message =>
      simp [run, Scope.accesses, Scope.effect, removeSync, receiveMessage, insertSync, rebuild, Server.receiveSync, decoded]

theorem update_whole (request : Request) (m : Shared Task Auto Sync Message Bytes) :
    run (Scope.accesses am keys t (.update request)) m = Scope.effect am keys t (.update request) m := by
  cases may : eval m.server.state m.server.state.me request.right with
  | false =>
      cases request <;> simp only [Request.right] at may <;>
        simp [run, Scope.accesses, Scope.effect, check, allocate, makeOp, appendOp, effectOp, Server.update,
          updateDocument, updatePolicy, Request.right, Request.refusal, may]
  | true =>
      cases request <;> simp only [Request.right] at may <;>
        simp [run, Scope.accesses, Scope.effect, check, allocate, makeOp, appendOp, effectOp, Server.update,
          updateDocument, updatePolicy, Request.right, Request.key, Request.op, State.integrate, may]

theorem snapshot_whole (m : Shared Task Auto Sync Message Bytes) :
    run (Scope.accesses am keys t .snapshot) m = Scope.effect am keys t .snapshot m := by
  simp [run, Scope.accesses, Scope.effect, compensate, evaluate, assemble, Server.host, Host.buildSnapshot]

theorem scope_whole (scope : Scope Bytes) (m : Shared Task Auto Sync Message Bytes) :
    run (Scope.accesses am keys t scope) m = Scope.effect am keys t scope m := by
  cases scope with
  | generate peerSite => exact generate_whole am keys t peerSite m
  | receive peerSite bytes => exact receive_whole am keys t peerSite bytes m
  | update request => exact update_whole am keys t request m
  | snapshot => exact snapshot_whole am keys t m

theorem update_moves (may : Cluster Auto Sync Bytes → ConnectionEnd → Prop) (w : Cluster Auto Sync Bytes) (i : SiteId)
    (request : Request) (done : ((w.server i).update am request).2 = none) :
    Move am may w (w.serve i ((w.server i).update am request).1) := by
  cases request with
  | edit edit =>
      cases updated : updateDocument (w.server i).state (am.lists (w.server i).doc) edit with
      | error e => simp [Server.update, updated] at done
      | ok result =>
          simp only [Server.update, updated]
          exact .updateDocument w i edit _ _ _ updated
  | change target right effect =>
      cases updated : updatePolicy (w.server i).state (am.lists (w.server i).doc) target right effect with
      | error e => simp [Server.update, updated] at done
      | ok result =>
          simp only [Server.update, updated]
          exact .updatePolicy w i target right effect _ _ _ updated

end Scopes

inductive Job where
  | outbound (peerSite : SiteId)
  | inbound (peerSite : SiteId)
  | handle

-- One turn of each loop. It waits in a channel, on a stream or for the timer. Which
-- turn an update leads to is left open: one that is refused sends the error only.
inductive Job.Turn {Bytes : Type} : Job → List (Block (Scope Bytes)) → Prop where
  | generate (peerSite : SiteId) : Turn (.outbound peerSite) [.critical (.generate peerSite), .wait]
  | hello (peerSite : SiteId) : Turn (.inbound peerSite) [.wait]
  | sync (peerSite : SiteId) (bytes : Bytes) : Turn (.inbound peerSite) [.wait, .critical (.receive peerSite bytes)]
  | accepted (request : Request) : Turn .handle [.wait, .critical (.update request), .critical .snapshot, .wait]
  | refused (request : Request) : Turn .handle [.wait, .critical (.update request), .wait]
  | snapshot : Turn .handle [.wait, .critical .snapshot, .wait]

def Job.Aborted (job : Job) : Prop := ∃ peerSite, job = .outbound peerSite

section Serial

variable {Task Auto Sync Message Bytes : Type} [DecidableEq Task]
variable (am : Automerge Auto Sync Message Bytes) (keys : (SiteId → Option Sync) → OrderedSet SiteId)

def Shared.start (server : Server Auto Sync) : Shared Task Auto Sync Message Bytes := ⟨server, fun _ => .empty⟩

abbrev Interleaved (job : Task → Job) :=
  Sections.Move (serverCode am keys Task) (fun t => (job t).Turn) (fun t => (job t).Aborted)

abbrev Serial (job : Task → Job) :=
  Whole (fun t scope => Scope.effect am keys t scope) (fun t => (job t).Turn) (fun t => (job t).Aborted)

theorem server_serial [Fintype Task] (job : Task → Job) (server : Server Auto Sync)
    (w : Fine Task (Scope Bytes) ServerLock (Shared Task Auto Sync Message Bytes))
    (moves : Relation.ReflTransGen (Interleaved am keys job) (Fine.start (.start server)) w) :
    (∃ a, Relation.ReflTransGen (Serial am keys job) (Atomic.start (.start server)) a ∧
      (∀ t, a.blocks t = (w.stage t).ahead ++ w.blocks t) ∧ ((∀ t, (w.stage t).held = []) → a.memory = w.memory)) ∧
    ∃ next, Relation.ReflTransGen (Inside (serverCode am keys Task)) w next ∧ ∀ t, next.stage t = .between := by
  obtain ⟨kept, a, steps, mirrors⟩ := run_mirrored (serverCode am keys Task) (fun t scope => Scope.effect am keys t scope)
    (fun t => (job t).Turn) (fun t => (job t).Aborted) (scope_whole am keys) (.start server) w moves
  refine ⟨⟨a, steps, mirrors.blocks, fun free => mirrors.quiet fun t => ?_⟩, all_leave _ w kept⟩
  by_contra busy
  exact pending_holds _ _ (kept.orderly t) busy (free t)

end Serial

def outboundAndHandle : Bool → Job
  | true => .outbound "B"
  | false => .handle

def peerB (states : SiteId → Option (Option Doc)) : OrderedSet SiteId :=
  if (states "B").isSome then OrderedSet.insert "B" ∅ else ∅

theorem contended_run : ∃ w, Relation.ReflTransGen (Interleaved wholeDocument peerB outboundAndHandle)
    (Fine.start (.start (freshServer "A"))) w ∧ w.stage true = .between ∧ (w.stage false).held = [.state] := by
  have start : Relation.ReflTransGen (Interleaved wholeDocument peerB outboundAndHandle) (Fine.start (.start (freshServer "A")))
    (Fine.start (.start (freshServer "A"))) := .refl
  have begun := start.tail (.begin _ true [.critical (Scope.generate "B"), .wait] rfl rfl (.generate "B"))
  have entered := begun.tail (.enter _ true (.generate "B") [.wait] rfl rfl)
  have locked := entered.tail (.inside _ _ (.lock _ true (.generate "B") [] .state [.doc] rfl (by decide)))
  have asked := locked.tail (.begin _ false [.wait, .critical Scope.snapshot, .wait] rfl rfl .snapshot)
  have read := asked.tail (.wait _ false [.critical .snapshot, .wait] rfl rfl)
  have waits := read.tail (.enter _ false .snapshot [.wait] rfl rfl)
  have aborted := waits.tail (.abandon _ true (.generate "B") [.state] .doc [] ⟨"B", rfl⟩ rfl)
  have unlocked := aborted.tail (.inside _ _ (.unlock _ true .state [] rfl))
  have ended := unlocked.tail (.inside _ _ (.leave _ true rfl))
  have taken := ended.tail (.inside _ _ (.lock _ false .snapshot [] .state [] rfl (by decide)))
  exact ⟨_, taken, rfl, rfl⟩

theorem contended_serial : ∃ w, (w.stage false).held = [ServerLock.state] ∧
    (∃ a, Relation.ReflTransGen (Serial wholeDocument peerB outboundAndHandle) (Atomic.start (.start (freshServer "A"))) a ∧
      (∀ t, a.blocks t = (w.stage t).ahead ++ w.blocks t) ∧ ((∀ t, (w.stage t).held = []) → a.memory = w.memory)) ∧
    ∃ next, Relation.ReflTransGen (Inside (serverCode wholeDocument peerB Bool)) w next ∧ ∀ t, next.stage t = .between := by
  obtain ⟨w, run, -, held⟩ := contended_run
  exact ⟨w, held, server_serial wholeDocument peerB outboundAndHandle (freshServer "A") w run⟩

end Accure.Peer
