import Accure.State

set_option autoImplicit false

namespace Accure

def Strategy.favors (strategy : Strategy) (effect : Effect) : Bool :=
  match strategy with
  | .integrity => effect = .deny
  | .accessibility => effect = .allow

-- One turn of the loops of eval and is_valid_document. Their two matches list
-- the cases "deeper", "as deep" and "less deep" in a different order only.
def deepen (strategy : Strategy) (best : Option (Nat × PolicyOp)) (lvl : Nat) (p : PolicyOp) : Option (Nat × PolicyOp) :=
  match best with
  | none => some (lvl, p)
  | some (bl, bp) =>
      if bl > lvl then some (bl, bp)
      else if bl = lvl then (if strategy.favors p.effect then some (lvl, p) else some (bl, bp))
      else some (lvl, p)

def deepestStep (s : State) (dag : Dag) (considers : PolicyOp → Bool) (best : Option (Nat × PolicyOp)) (n : Dot) :
    Option (Nat × PolicyOp) :=
  if s.markedValid n then
    match s.policyOp n with
    | none => best
    | some p => if considers p then deepen s.strategy best (dag.level n) p else best
  else best

def deepest (s : State) (dag : Dag) (considers : PolicyOp → Bool) : Option (Nat × PolicyOp) :=
  dag.nodes.elems.foldl (deepestStep s dag considers) none

def eval (s : State) (site : SiteId) (right : Right) : Bool :=
  match s.tuple ⟨site, right⟩ with
  | none => true
  | some dag =>
      if dag.nodes.elems.isEmpty then true
      else
        match deepest s dag (fun _ => true) with
        | none => true
        | some (_, p) => p.effect = .allow

def opWinsAgainst (strategy : Strategy) (a _b : PolicyOp) : Bool := strategy.favors a.effect

def conflicts (s : State) (op : PolicyOp) (dag : Dag) : List PolicyOp :=
  let anc := dag.ancestors op.dot
  dag.nodes.elems.filterMap fun n =>
    if n = op.dot then none
    else if n ∈ anc then none
    else if op.dot ∈ dag.ancestors n then none
    else
      match s.policyOp n with
      | none => none
      | some p => if p.effect ≠ op.effect then some p else none

def isValidPolicy (s : State) (op : PolicyOp) (dag : Dag) : Bool :=
  if (conflicts s op dag).any (fun c => s.markedValid c.dot && !opWinsAgainst s.strategy op c) then false
  else op.deps.all s.markedValid || op.deps.isEmpty

def covers (p : PolicyOp) (d : Dot) : Bool :=
  if p.missingDots.any (fun m => m = d) then true
  else
    match p.lastDotSeen with
    | none => p.effect = .deny
    | some lds =>
        if lds.site = d.site then (if lds.n ≥ d.n then true else p.effect = .deny)
        else p.effect = .deny

def depsAccepted (s : State) (d : DocOp) : Bool := d.deps.all (fun x => (s.valid x).getD true)

def isValidDocument (s : State) (d : DocOp) : Bool :=
  let emitter := d.dot.site
  match s.tuple ⟨emitter, .write⟩ with
  | none =>
      let bootstrapOk := emitter = s.me || true
      bootstrapOk && depsAccepted s d
  | some dag =>
      let policyAllows := match deepest s dag (fun p => covers p d.dot) with
        | none => true
        | some (_, p) => p.effect = .allow
      if !policyAllows then false else depsAccepted s d

def isValid (s : State) : Operation → Bool
  | .policy p =>
      match s.tuple p.tuple with
      | none => p.deps.isEmpty
      | some dag => isValidPolicy s p dag
  | .document d => isValidDocument s d

end Accure
