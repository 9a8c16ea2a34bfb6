import Accure.Command
import Accure.Integrate

set_option autoImplicit false

namespace Accure

structure Snapshot where
  site : SiteId
  document : String
  policy : List (SiteId × Right × Bool)
  logLen : Nat
  peers : List SiteId
deriving DecidableEq, Repr

inductive ServerEvent where
  | state (snapshot : Snapshot)
  | trace (text : String)
  | error (text : String)
deriving DecidableEq, Repr

-- What handle needs of a server: the state and document behind its locks, and
-- the keys of peer_sync_states.
structure Host where
  state : State
  doc : Doc
  peers : OrderedSet SiteId

def noteSites (sites : OrderedSet SiteId) (op : Operation) : OrderedSet SiteId :=
  match op with
  | .policy p => (sites.insert p.target).insert p.dot.site
  | .document d => sites.insert d.dot.site

def knownSites (s : State) : OrderedSet SiteId := s.log.foldl noteSites (OrderedSet.insert s.me ∅)

def Host.buildSnapshot (host : Host) : Snapshot where
  site := host.state.me
  document := currentText host.state
  policy := (knownSites host.state).elems.flatMap fun site =>
    [Right.admin, .read, .write].map fun right => (site, right, eval host.state site right)
  logLen := host.state.log.length
  peers := host.peers.elems

def Host.edit (host : Host) (edit : TextEdit) : Host × Option String :=
  match updateDocument host.state host.doc edit with
  | .error e => (host, some e)
  | .ok (_, s, doc) => ({ host with state := s, doc := doc }, none)

def Host.change (host : Host) (target : SiteId) (right : Right) (effect : Effect) : Host × Option String :=
  match updatePolicy host.state host.doc target right effect with
  | .error e => (host, some e)
  | .ok (_, s, doc) => ({ host with state := s, doc := doc }, none)

-- What a command does under the locks, with the error it is answered with. A
-- command without one is answered with a snapshot, built after the locks were
-- given up and taken again.
def Host.perform (host : Host) : ClientCommand → Host × Option String
  | .insert pos ch => host.edit (.insert pos ch)
  | .delete pos => host.edit (.delete pos)
  | .allow target right => host.change target right .allow
  | .deny target right => host.change target right .deny
  | .snapshot => (host, none)
  | .subscribe => (host, none)

end Accure
