import Accure.Sessions

set_option autoImplicit false

namespace Accure.Peer

-- automerge_bridge.rs, the helper the tests use for the same protocol.
structure Bridge (Auto Sync : Type) where
  doc : Auto
  syncStates : String → Option Sync

inductive BridgeError (Refusal : Type) where
  | automerge (e : Refusal)
  | syncDecode

section Malformed

variable {Auto Sync Message Bytes Refusal : Type} (am : Automerge Auto Sync Message Bytes)

-- `refusal` is the error of receive_sync_message, if it returns one. The message
-- is decoded first, before the entry is touched.
def Bridge.receive (refusal : Auto → Sync → Message → Option Refusal) (bridge : Bridge Auto Sync) (peer : String)
    (bytes : Bytes) : Bridge Auto Sync × Except (BridgeError Refusal) Unit :=
  match am.decode bytes with
  | none => (bridge, .error .syncDecode)
  | some msg =>
      let st := (bridge.syncStates peer).getD am.start
      let (doc, next) := am.receive bridge.doc st msg
      (⟨doc, Function.update bridge.syncStates peer (some next)⟩,
        match refusal bridge.doc st msg with
        | none => .ok ()
        | some e => .error (.automerge e))

def Server.bridge (server : Server Auto Sync) : Bridge Auto Sync := ⟨server.doc, server.peerSyncStates⟩

variable (server : Server Auto Sync) (peerSite : SiteId) (bytes : Bytes)

theorem receive_undecodable (malformed : am.decode bytes = none) : server.receiveSync am peerSite bytes =
    ({ server with peerSyncStates := Function.update server.peerSyncStates peerSite none }, []) := by
  rw [Server.receiveSync, malformed]

theorem receive_decodable (m : Message) (readable : am.decode bytes = some m) :
    ((server.receiveSync am peerSite bytes).1.doc, (server.receiveSync am peerSite bytes).1.peerSyncStates) =
      ((am.receive server.doc ((server.peerSyncStates peerSite).getD am.start) m).1,
        Function.update server.peerSyncStates peerSite
          (some (am.receive server.doc ((server.peerSyncStates peerSite).getD am.start) m).2)) := by
  rw [Server.receiveSync, readable]
  simp

omit server in
theorem update_none_iff (entries : SiteId → Option Sync) :
    Function.update entries peerSite none = entries ↔ entries peerSite = none := by
  rw [Function.update_eq_self_iff, eq_comm]

-- The handler and the bridge end alike, except that a malformed message costs
-- the handler the peer's entry.
theorem receive_as_bridge (refusal : Auto → Sync → Message → Option Refusal) :
    (server.receiveSync am peerSite bytes).1.bridge = (server.bridge.receive am refusal peerSite bytes).1 ↔
      am.decode bytes ≠ none ∨ server.peerSyncStates peerSite = none := by
  cases decoded : am.decode bytes with
  | none =>
      rw [receive_undecodable am server peerSite bytes decoded, Bridge.receive, decoded]
      simp only [Server.bridge, Bridge.mk.injEq, true_and, ne_eq, not_true_eq_false, false_or]
      exact update_none_iff peerSite server.peerSyncStates
  | some m =>
      have same := receive_decodable am server peerSite bytes m decoded
      rw [Prod.mk.injEq] at same
      simp [Server.bridge, Bridge.receive, decoded, same.1, same.2]

theorem malformed_forgets (malformed : am.decode bytes = none) :
    ((server.receiveSync am peerSite bytes).1.generateSync am peerSite).2 =
      (am.generate server.doc am.start).2.2.map am.encode := by
  rw [receive_undecodable am server peerSite bytes malformed]
  simp [Server.generateSync]

theorem malformed_changes_nothing (malformed : am.decode bytes = none) :
    (server.receiveSync am peerSite bytes).1 = server ↔ server.peerSyncStates peerSite = none := by
  rw [receive_undecodable am server peerSite bytes malformed]
  constructor
  · intro same
    exact (update_none_iff peerSite server.peerSyncStates).mp (congrArg Server.peerSyncStates same)
  · intro absent
    rw [(update_none_iff peerSite server.peerSyncStates).mpr absent]

end Malformed

def strictDocument : Automerge Doc (Option Doc) Doc (Option Doc) where
  lists := wholeDocument.lists
  append := wholeDocument.append
  start := wholeDocument.start
  generate := wholeDocument.generate
  receive := wholeDocument.receive
  encode := some
  decode := id

def acquainted : Server Doc (Option Doc) :=
  ((freshServer "B").receiveSync strictDocument "C" (some ⟨[], [⟨⟨"C", 1⟩, [], .insert 0 'c'⟩]⟩)).1

theorem malformed_first_message : acquainted.state.log.map Operation.dot = [⟨"C", 1⟩] ∧
    acquainted.peerSyncStates "C" = some none ∧ (acquainted.receiveSync strictDocument "A" none).1 = acquainted :=
  ⟨by decide +kernel, by decide +kernel, (malformed_changes_nothing strictDocument acquainted "A" none rfl).mpr rfl⟩

theorem malformed_loses_entry : ¬ ∀ (server : Server Doc (Option Doc)) (peerSite : SiteId) (bytes : Option Doc),
    strictDocument.decode bytes = none → (server.receiveSync strictDocument peerSite bytes).1 = server := by
  intro holds
  have same := holds ((freshServer "B").generateSync strictDocument "A").1 "A" none rfl
  have entry := congrArg (fun server => server.peerSyncStates "A") same
  exact absurd entry (by decide +kernel)

end Accure.Peer
