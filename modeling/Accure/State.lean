import Accure.Dag

set_option autoImplicit false

namespace Accure

inductive Strategy where
  | integrity
  | accessibility
deriving DecidableEq, Repr

inductive TupleKey where
  | policy (t : AccessTuple)
  | document (site : SiteId)
  | site
deriving DecidableEq, Repr

-- Maps are functions into Option. The numbers of next_n are unbounded here: no
-- counter of a run reaches the largest u64. The outbox and the applied set are
-- left out, since no function modelled here reads them; the peers' sync states
-- stand beside the state, in the server whose sessions use them.
structure State where
  me : SiteId
  log : List Operation
  g : AccessTuple → Option Dag
  valid : Dot → Option Bool
  nextN : SiteId × TupleKey → Option Nat
  strategy : Strategy

def State.new (me : SiteId) (strategy : Strategy) : State where
  me := me
  log := []
  g := fun _ => none
  valid := fun _ => none
  nextN := fun _ => none
  strategy := strategy

def State.tuple (s : State) (t : AccessTuple) : Option Dag := s.g t

-- tuple_mut inserts an empty DAG for an absent key and lends the DAG out;
-- here the change made through the loan is an argument.
def State.tupleMut (s : State) (t : AccessTuple) (change : Dag → Dag) : State :=
  { s with g := Function.update s.g t (some (change ((s.g t).getD Dag.new))) }

def State.op (s : State) (d : Dot) : Option Operation := s.log.find? (fun o => o.dot = d)

def State.policyOp (s : State) (d : Dot) : Option PolicyOp := (s.op d).bind Operation.asPolicy

def State.allocN (s : State) (_key : TupleKey) : Nat × State :=
  let n := (s.nextN (s.me, .site)).getD 0 + 1
  (n, { s with nextN := Function.update s.nextN (s.me, .site) (some n) })

def State.noteN (s : State) (site : SiteId) (_key : TupleKey) (n : Nat) : State :=
  let e := (s.nextN (site, .site)).getD 0
  { s with nextN := Function.update s.nextN (site, .site) (some (if n > e then n else e)) }

def State.bootstrapSelf (s : State) : State :=
  [Right.admin, Right.read, Right.write].foldl (fun s r => s.tupleMut ⟨s.me, r⟩ id) s

def State.markedValid (s : State) (d : Dot) : Bool := (s.valid d).getD false

end Accure
