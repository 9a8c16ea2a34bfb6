import Accure.Compensation

set_option autoImplicit false

namespace Accure

inductive Trace where
  | generated (o : Operation)
  | received (o : Operation)
  | validity (d : Dot) (valid : Bool)
  | compensation (text : String)
deriving DecidableEq, Repr

def Dot.display (d : Dot) : String := d.site ++ ":" ++ toString d.n

-- The replicated document: the entries of its two lists, read in list order.
-- An entry is stored as the bincode bytes of its op and read back by the inverse.
structure Doc where
  policyLog : List PolicyOp
  docLog : List DocOp
deriving DecidableEq, Repr

def newSharedDoc : Doc := ⟨[], []⟩

-- One turn of max_by_key, which keeps the last of the largest.
def laterDoc (best : Option DocOp) (d : DocOp) : Option DocOp :=
  match best with
  | none => some d
  | some b => if b.dot.n ≤ d.dot.n then some d else some b

def lastDotForWriteTuple (s : State) (target : SiteId) : Option Dot :=
  let docs := (s.log.filterMap Operation.asDocument).filter (fun d => d.dot.site = target)
  (docs.foldl laterDoc none).map DocOp.dot

def deriveMissingDots (s : State) (target : SiteId) (last : Option Dot) : List Dot :=
  match last with
  | none => []
  | some d =>
      let docs := (s.log.filterMap Operation.asDocument).filter (fun d => d.dot.site = target)
      let seen := (OrderedSet.insert d.n (docs.foldl (fun set d => set.insert d.dot.n) ∅))
      ((List.range' 1 (d.n - 1)).filter (fun n => n ∉ seen)).map (fun n => ⟨target, n⟩)

def currentTopLevelDeps (s : State) (t : AccessTuple) : List Dot :=
  match s.tuple t with
  | none => []
  | some dag =>
      let top := dag.maxLevel
      if top = 0 then [] else (dag.atLevel top).filter s.markedValid

structure Round where
  state : State
  traces : List Trace
  changed : Bool

def recheck (round : Round) (op : Operation) : Round :=
  let newV := isValid round.state op
  if round.state.valid op.dot = some newV then round
  else
    { state := { round.state with valid := Function.update round.state.valid op.dot (some newV) }
      traces := round.traces ++ .validity op.dot newV ::
        (match op with
          | .policy _ => []
          | .document _ => [.compensation (op.dot.display ++ " → " ++ (if newV then "redo" else "undo"))])
      changed := true }

def validityRound (s : State) : Round := s.log.foldl recheck ⟨s, [], false⟩

-- The flag of the result is true when the loop ended by its break and false
-- when it used up its rounds.
def rebuildRounds : Nat → State → State × List Trace × Bool
  | 0, s => (s, [], false)
  | rounds + 1, s =>
      let round := validityRound s
      if round.changed then
        let rest := rebuildRounds rounds round.state
        (rest.1, round.traces ++ rest.2.1, rest.2.2)
      else (round.state, round.traces, true)

def maxIters (s : State) : Nat := s.log.length * 4 + 8

def rebuildValidity (s : State) : State × List Trace :=
  let result := rebuildRounds (maxIters s) s
  (result.1, result.2.1)

def admitPolicy (s : State) (p : PolicyOp) : State :=
  let s := s.tupleMut p.tuple (fun dag => p.deps.foldl (fun dag dep => dag.addEdge dep p.dot) (dag.addNode p.dot))
  let s := s.noteN p.dot.site (TupleKey.policy p.tuple) p.dot.n
  { s with log := s.log ++ [.policy p] }

def effectPolicy (s : State) (p : PolicyOp) : State := (rebuildValidity (admitPolicy s p)).1

def logDocument (s : State) (d : DocOp) : State :=
  let s : State := { s with log := s.log ++ [.document d] }
  s.noteN d.dot.site (TupleKey.document d.dot.site) d.dot.n

def effectDocument (s : State) (d : DocOp) : State :=
  let s := logDocument s d
  { s with valid := Function.update s.valid d.dot (some (isValidDocument s d)) }

def updatePolicy (s : State) (doc : Doc) (target : SiteId) (right : Right) (effect : Effect) :
    Except String (PolicyOp × State × Doc) :=
  if !eval s s.me .admin then .error "local site lacks Admin right"
  else
    let t : AccessTuple := ⟨target, right⟩
    let (n, s) := s.allocN (TupleKey.policy t)
    let lastDotSeen := lastDotForWriteTuple s target
    let p : PolicyOp :=
      { dot := ⟨s.me, n⟩
        target := target
        right := right
        effect := effect
        deps := currentTopLevelDeps s t
        lastDotSeen := lastDotSeen
        missingDots := deriveMissingDots s target lastDotSeen }
    .ok (p, effectPolicy s p, { doc with policyLog := doc.policyLog ++ [p] })

def updateDocument (s : State) (doc : Doc) (edit : TextEdit) : Except String (DocOp × State × Doc) :=
  if !eval s s.me .write then .error "local site lacks Write right"
  else
    let (n, s) := s.allocN (TupleKey.document s.me)
    let d : DocOp := { dot := ⟨s.me, n⟩, deps := currentTopLevelDeps s ⟨s.me, .write⟩, edit := edit }
    .ok (d, effectDocument s d, { doc with docLog := doc.docLog ++ [d] })

def receivePolicy (prior : List Dot) (work : State × List Trace) (p : PolicyOp) : State × List Trace :=
  if p.dot ∈ prior then work else (effectPolicy work.1 p, work.2 ++ [.received (.policy p)])

def receiveDocument (prior : List Dot) (work : State × List Trace) (d : DocOp) : State × List Trace :=
  if d.dot ∈ prior then work else (effectDocument work.1 d, work.2 ++ [.received (.document d)])

def rebuildFromAutomerge (s : State) (doc : Doc) : State × List Trace :=
  let priorPolicy := (s.log.filterMap Operation.asPolicy).map PolicyOp.dot
  let priorDocs := (s.log.filterMap Operation.asDocument).map DocOp.dot
  let work := doc.policyLog.foldl (receivePolicy priorPolicy) (s, [])
  let work := doc.docLog.foldl (receiveDocument priorDocs) work
  let final := rebuildValidity work.1
  (final.1, work.2 ++ final.2)

def newStateFromBytes (me : SiteId) (strategy : Strategy) (doc : Doc) : State × Doc :=
  ((State.new me strategy).bootstrapSelf, doc)

def currentText (s : State) : String := renderText s.log s.valid

end Accure
