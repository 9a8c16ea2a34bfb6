import Accure.Register

set_option autoImplicit false

namespace Accure

structure Sound (rank : Dot → Nat) (s : State) : Prop extends Consistent rank s where
  settled : AllSettled s
  domain : ∀ d, s.valid d ≠ none → ∃ o ∈ s.log, o.dot = d

structure Steady (rank : Dot → Nat) (s : State) : Prop extends Wired rank s where
  settled : PoliciesSettled s
  domain : ∀ d, s.valid d ≠ none → ∃ o ∈ s.log, o.dot = d

structure Resolved (rank : Dot → Nat) (s : State) : Prop extends Steady rank s where
  linked : DocsLinked s
  documents : ∀ d, .document d ∈ s.log → s.valid d.dot = some (isValid s (.document d))

theorem Resolved.every {rank : Dot → Nat} {s : State} (resolved : Resolved rank s) : AllSettled s := by
  intro o member
  cases o with
  | policy p => exact resolved.settled p member
  | document d => exact resolved.documents d member

theorem resolved_of_every (rank : Dot → Nat) (s : State) (wired : Wired rank s) (linked : DocsLinked s)
    (every : AllSettled s) (domain : ∀ d, s.valid d ≠ none → ∃ o ∈ s.log, o.dot = d) : Resolved rank s :=
  ⟨⟨wired, fun p member => every (.policy p) member, domain⟩, linked, fun d member => every (.document d) member⟩

theorem Sound.resolved {rank : Dot → Nat} {s : State} (sound : Sound rank s) : Resolved rank s :=
  resolved_of_every rank s sound.wired sound.linked sound.settled sound.domain

theorem Sound.steady {rank : Dot → Nat} {s : State} (sound : Sound rank s) : Steady rank s := sound.resolved.toSteady

-- A policy op that can be integrated next: its dot is new and its dependencies
-- are there.
structure PolicyArrives (rank : Dot → Nat) (s : State) (p : PolicyOp) : Prop where
  fresh : ∀ o ∈ s.log, o.dot ≠ p.dot
  deps : ∀ a ∈ p.deps, ∃ q, .policy q ∈ s.log ∧ q.tuple = p.tuple ∧ q.dot = a
  rankRoot : p.deps = [] → rank p.dot = 1
  rankDep : ∀ a ∈ p.deps, rank p.dot = rank a + 1

structure PolicyFits (rank : Dot → Nat) (s : State) (p : PolicyOp) : Prop where
  fresh : ∀ o ∈ s.log, o.dot ≠ p.dot
  deps : ∀ a ∈ p.deps, ∃ q, .policy q ∈ s.log ∧ q.tuple = p.tuple ∧ q.dot = a
  rankDep : ∀ a ∈ p.deps, rank a < rank p.dot

theorem PolicyArrives.fits {rank : Dot → Nat} {s : State} {p : PolicyOp} (arrives : PolicyArrives rank s p) :
    PolicyFits rank s p := by
  refine ⟨arrives.fresh, arrives.deps, ?_⟩
  intro a dep
  have step := arrives.rankDep a dep
  omega

structure DocumentArrives (s : State) (d : DocOp) : Prop where
  fresh : ∀ o ∈ s.log, o.dot ≠ d.dot
  deps : ∀ a ∈ d.deps, ∃ q, .policy q ∈ s.log ∧ q.tuple = d.tuple ∧ q.dot = a

def Dag.link (dag : Dag) (p : PolicyOp) : Dag :=
  p.deps.foldl (fun dag dep => dag.addEdge dep p.dot) (dag.addNode p.dot)

theorem mem_link_nodes (dag : Dag) (p : PolicyOp) (d : Dot) :
    d ∈ (dag.link p).nodes ↔ d = p.dot ∨ d ∈ p.deps ∨ d ∈ dag.nodes := by
  have edges : ∀ (deps : List Dot) (dag : Dag),
      d ∈ (deps.foldl (fun dag dep => dag.addEdge dep p.dot) dag).nodes ↔
        (deps ≠ [] ∧ d = p.dot) ∨ d ∈ deps ∨ d ∈ dag.nodes := by
    intro deps
    induction deps with
    | nil => simp
    | cons head tail ih =>
        intro dag
        rw [List.foldl_cons, ih]
        simp only [Dag.addEdge, OrderedSet.mem_insert, List.mem_cons]
        tauto
  rw [Dag.link, edges]
  simp only [Dag.addNode, OrderedSet.mem_insert]
  tauto

theorem mem_link_parents (dag : Dag) (p : PolicyOp) (a b : Dot) :
    a ∈ (dag.link p).parents b ↔ (b = p.dot ∧ a ∈ p.deps) ∨ a ∈ dag.parents b := by
  have edges : ∀ (deps : List Dot) (dag : Dag),
      a ∈ (deps.foldl (fun dag dep => dag.addEdge dep p.dot) dag).parents b ↔
        (b = p.dot ∧ a ∈ deps) ∨ a ∈ dag.parents b := by
    intro deps
    induction deps with
    | nil => simp
    | cons head tail ih =>
        intro dag
        rw [List.foldl_cons, ih]
        simp only [Dag.addEdge, mem_add_to, List.mem_cons]
        tauto
  exact edges p.deps (dag.addNode p.dot)

@[simp] theorem admit_log (s : State) (p : PolicyOp) : (admitPolicy s p).log = s.log ++ [.policy p] := rfl

@[simp] theorem admit_strategy (s : State) (p : PolicyOp) : (admitPolicy s p).strategy = s.strategy := rfl

theorem admit_dag_here (s : State) (p : PolicyOp) : (admitPolicy s p).dagAt p.tuple = (s.dagAt p.tuple).link p := by
  simp [State.dagAt, admitPolicy, State.tupleMut, State.noteN, Dag.link]

theorem admit_dag_elsewhere (s : State) (p : PolicyOp) (t : AccessTuple) (other : t ≠ p.tuple) :
    (admitPolicy s p).dagAt t = s.dagAt t := by
  simp [State.dagAt, admitPolicy, State.tupleMut, State.noteN, Function.update_of_ne other]

theorem admit_nodes (s : State) (p : PolicyOp) (t : AccessTuple) (d : Dot) :
    d ∈ ((admitPolicy s p).dagAt t).nodes ↔ (t = p.tuple ∧ (d = p.dot ∨ d ∈ p.deps)) ∨ d ∈ (s.dagAt t).nodes := by
  by_cases here : t = p.tuple
  · rw [here, admit_dag_here, mem_link_nodes]
    tauto
  · rw [admit_dag_elsewhere s p t here]
    tauto

theorem admit_parents (s : State) (p : PolicyOp) (t : AccessTuple) (a b : Dot) :
    a ∈ ((admitPolicy s p).dagAt t).parents b ↔ (t = p.tuple ∧ b = p.dot ∧ a ∈ p.deps) ∨ a ∈ (s.dagAt t).parents b := by
  by_cases here : t = p.tuple
  · rw [here, admit_dag_here, mem_link_parents]
    tauto
  · rw [admit_dag_elsewhere s p t here]
    tauto

theorem mem_admit_log (s : State) (p q : PolicyOp) : .policy q ∈ (admitPolicy s p).log ↔ .policy q ∈ s.log ∨ q = p := by
  simp

section Policy

variable (rank : Dot → Nat) (s : State) (p : PolicyOp)
variable (wired : Wired rank s) (fits : PolicyFits rank s p)

include wired fits

theorem admit_wired : Wired rank (admitPolicy s p) := by
  have inLog := mem_admit_log s p
  constructor
  · exact dots_append_nodup Operation.dot s.log (.policy p) wired.nodup fits.fresh
  · intro t d
    simp only [admit_nodes, wired.nodes, inLog]
    constructor
    · rintro (⟨rfl, rfl | dep⟩ | ⟨q, qIn, tuple, dot⟩)
      · exact ⟨p, Or.inr rfl, rfl, rfl⟩
      · obtain ⟨q, qIn, tuple, dot⟩ := fits.deps d dep
        exact ⟨q, Or.inl qIn, tuple, dot⟩
      · exact ⟨q, Or.inl qIn, tuple, dot⟩
    · rintro ⟨q, old | rfl, tuple, dot⟩
      · exact Or.inr ⟨q, old, tuple, dot⟩
      · exact Or.inl ⟨tuple.symm, Or.inl dot.symm⟩
  · intro t a b
    simp only [admit_parents, wired.parents, inLog]
    constructor
    · rintro (⟨rfl, rfl, dep⟩ | ⟨q, qIn, tuple, dot, dep⟩)
      · exact ⟨p, Or.inr rfl, rfl, rfl, dep⟩
      · exact ⟨q, Or.inl qIn, tuple, dot, dep⟩
    · rintro ⟨q, old | rfl, tuple, dot, dep⟩
      · exact Or.inr ⟨q, old, tuple, dot, dep⟩
      · exact Or.inl ⟨tuple.symm, dot.symm, dep⟩
  · intro q member a dep
    have found : ∃ r, .policy r ∈ s.log ∧ r.tuple = q.tuple ∧ r.dot = a := by
      rcases (inLog q).mp member with old | new
      · exact wired.deps q old a dep
      · exact new ▸ fits.deps a (new ▸ dep)
    obtain ⟨r, rIn, tuple, dot⟩ := found
    exact ⟨r, (inLog r).mpr (Or.inl rIn), tuple, dot⟩
  · rw [admit_log, List.pairwise_append]
    refine ⟨wired.ordered, by simp, ?_⟩
    intro earlier member later last q same dep
    subst same
    rw [List.mem_singleton.mp last] at dep
    obtain ⟨r, rIn, _, dot⟩ := wired.deps q member _ dep
    exact fits.fresh _ rIn dot
  · intro q member a dep
    rcases (inLog q).mp member with old | new
    · exact wired.rankDep q old a dep
    · exact new ▸ fits.rankDep a (new ▸ dep)

theorem admit_extends : Conflict.Extends (s.graph p.tuple) ((admitPolicy s p).graph p.tuple) p.dot := by
  have depNode : ∀ a ∈ p.deps, a ∈ (s.dagAt p.tuple).nodes := by
    intro a dep
    obtain ⟨q, qIn, tuple, dot⟩ := fits.deps a dep
    exact (wired.nodes _ _).mpr ⟨q, qIn, tuple, dot⟩
  have fresh : p.dot ∉ (s.dagAt p.tuple).nodes := by
    intro node
    obtain ⟨q, qIn, _, dot⟩ := (wired.nodes _ _).mp node
    exact fits.fresh _ qIn dot
  constructor
  · exact fresh
  · intro x
    refine (admit_nodes s p p.tuple x).trans ?_
    constructor
    · rintro (⟨_, here | dep⟩ | node)
      · exact Or.inl here
      · exact Or.inr (depNode x dep)
      · exact Or.inr node
    · rintro (here | node)
      · exact Or.inl ⟨rfl, Or.inl here⟩
      · exact Or.inr node
  · intro a b old
    refine (admit_parents s p p.tuple a b).trans ?_
    exact ⟨fun either => either.resolve_left (fun here => old here.2.1), Or.inr⟩
  · intro a edge
    rcases (admit_parents s p p.tuple a p.dot).mp edge with ⟨_, _, dep⟩ | before
    · exact depNode a dep
    · exact absurd ((s.dagAt p.tuple).endpoints a p.dot before).2 fresh
  · intro x node
    constructor
    · rintro ⟨q, qIn, tuple, dot, favored⟩
      rcases (mem_admit_log s p q).mp qIn with old | rfl
      · exact ⟨q, old, tuple, dot, favored⟩
      · exact absurd node (dot ▸ fresh)
    · rintro ⟨q, qIn, tuple, dot, favored⟩
      exact ⟨q, (mem_admit_log s p q).mpr (Or.inl qIn), tuple, dot, favored⟩

end Policy

theorem admit_linked (s : State) (p : PolicyOp) (linked : DocsLinked s) : DocsLinked (admitPolicy s p) := by
  intro d member a dep
  obtain ⟨q, qIn, dot⟩ := linked d (by simpa using member) a dep
  exact ⟨q, (mem_admit_log s p q).mpr (Or.inl qIn), dot⟩

theorem admit_consistent (rank : Dot → Nat) (s : State) (p : PolicyOp) (consistent : Consistent rank s)
    (arrives : PolicyArrives rank s p) : Consistent rank (admitPolicy s p) := by
  have admitted := admit_wired rank s p consistent.wired arrives.fits
  have inLog := mem_admit_log s p
  refine ⟨admitted.nodup, admitted.nodes, admitted.parents, admitted.deps, ?_, admitted.ordered, ?_, ?_⟩
  · intro d member a dep
    have old : .document d ∈ s.log := by simpa using member
    obtain ⟨q, qIn, tuple, dot⟩ := consistent.docDeps d old a dep
    exact ⟨q, (inLog q).mpr (Or.inl qIn), tuple, dot⟩
  · intro q member empty
    rcases (inLog q).mp member with old | new
    · exact consistent.rankRoot q old empty
    · exact new ▸ arrives.rankRoot (new ▸ empty)
  · intro q member a dep
    rcases (inLog q).mp member with old | new
    · exact consistent.rankDep q old a dep
    · exact new ▸ arrives.rankDep a (new ▸ dep)

theorem admit_graph_elsewhere (s : State) (p : PolicyOp) (t : AccessTuple) (other : t ≠ p.tuple) :
    (admitPolicy s p).graph t = s.graph t := by
  have wins : ∀ d, ((admitPolicy s p).graph t).wins d ↔ (s.graph t).wins d := by
    intro d
    constructor
    · rintro ⟨q, qIn, tuple, dot, favored⟩
      rcases (mem_admit_log s p q).mp qIn with old | rfl
      · exact ⟨q, old, tuple, dot, favored⟩
      · exact absurd tuple.symm other
    · rintro ⟨q, qIn, tuple, dot, favored⟩
      exact ⟨q, (mem_admit_log s p q).mpr (Or.inl qIn), tuple, dot, favored⟩
  have sameWins : ((admitPolicy s p).graph t).wins = (s.graph t).wins := funext fun d => propext (wins d)
  have dag := admit_dag_elsewhere s p t other
  rw [State.graph, State.graph, Conflict.Graph.mk.injEq]
  exact ⟨by rw [dag], by rw [dag], sameWins⟩

theorem dep_earlier (rank : Dot → Nat) (s : State) (wired : Wired rank s)
    (before after : List Operation) (x : PolicyOp)
    (split : s.log = before ++ .policy x :: after) (a : Dot) (dep : a ∈ x.deps) :
    ∃ q, .policy q ∈ before ∧ q.dot = a := by
  have xIn : .policy x ∈ s.log := split ▸ (by simp)
  obtain ⟨q, qIn, _, dot⟩ := wired.deps x xIn a dep
  have ordered := split ▸ wired.ordered
  rw [List.pairwise_append, List.pairwise_cons] at ordered
  rw [split] at qIn
  rcases List.mem_append.mp qIn with earlier | later
  · exact ⟨q, earlier, dot⟩
  · rcases List.mem_cons.mp later with here | after
    · cases here
      have step := wired.rankDep x xIn a dep
      rw [dot] at step
      omega
    · subst dot
      exact absurd dep (ordered.2.1.1 _ after x rfl)

theorem other_tuple_dot (s : State) (nodup : (s.log.map Operation.dot).Nodup) (q r : PolicyOp) (qIn : .policy q ∈ s.log)
    (rIn : .policy r ∈ s.log) (same : q.dot = r.dot) : q.tuple = r.tuple := by
  have equal := same_dot_same_op s.log nodup _ _ qIn rIn same
  cases equal
  rfl

theorem effect_policy_frame (s : State) (p : PolicyOp) : ∃ v, effectPolicy s p = (admitPolicy s p).withValid v ∧
    ∀ d, (∀ o ∈ (admitPolicy s p).log, o.dot ≠ d) → v d = s.valid d :=
  rebuild_frame (maxIters (admitPolicy s p)) (admitPolicy s p)

@[simp] theorem effect_policy_log (s : State) (p : PolicyOp) : (effectPolicy s p).log = s.log ++ [.policy p] := by
  obtain ⟨v, frame, _⟩ := effect_policy_frame s p
  rw [frame, with_valid_log, admit_log]

@[simp] theorem effect_policy_me (s : State) (p : PolicyOp) : (effectPolicy s p).me = s.me := by
  obtain ⟨v, frame, _⟩ := effect_policy_frame s p
  rw [frame]
  rfl

@[simp] theorem effect_policy_strategy (s : State) (p : PolicyOp) : (effectPolicy s p).strategy = s.strategy := by
  obtain ⟨v, frame, _⟩ := effect_policy_frame s p
  rw [frame]
  rfl

theorem effect_policy_next (s : State) (p : PolicyOp) :
    (effectPolicy s p).nextN = (s.noteN p.dot.site (.policy p.tuple) p.dot.n).nextN := by
  obtain ⟨v, frame, _⟩ := effect_policy_frame s p
  rw [frame]
  rfl

theorem effect_policy_dag (s : State) (p : PolicyOp) (t : AccessTuple) :
    (effectPolicy s p).dagAt t = (admitPolicy s p).dagAt t := by
  obtain ⟨v, frame, _⟩ := effect_policy_frame s p
  rw [frame]
  rfl

section Effect

variable (rank : Dot → Nat) (s : State) (p : PolicyOp) (steady : Steady rank s) (fits : PolicyFits rank s p)

include steady

theorem settled_value (q : PolicyOp) (member : .policy q ∈ s.log) : s.valid q.dot = some (s.markedValid q.dot) := by
  rw [State.markedValid, steady.settled q member, Option.getD_some]

theorem settled_marked (q : PolicyOp) (member : .policy q ∈ s.log) : s.markedValid q.dot = isValid s (.policy q) := by
  rw [State.markedValid, steady.settled q member, Option.getD_some]

theorem graph_settled (t : AccessTuple) : (s.graph t).Settled s.Marked := by
  intro x node
  obtain ⟨q, member, rfl, rfl⟩ := (steady.nodes t x).mp node
  rw [← is_valid_policy_op rank s steady.toWired q member, ← settled_marked rank s steady q member]
  exact Iff.rfl

include fits

omit steady fits in
theorem unmarked_of_absent (domain : ∀ d, s.valid d ≠ none → ∃ o ∈ s.log, o.dot = d) (d : Dot)
    (absent : ∀ o ∈ s.log, o.dot ≠ d) : s.valid d = none := by
  by_contra present
  obtain ⟨o, member, dot⟩ := domain d present
  exact absent o member dot

-- Before its first evaluation the new op is unmarked and changes no old value.
theorem admit_keeps_old (q : PolicyOp) (member : .policy q ∈ s.log) :
    isValid (admitPolicy s p) (.policy q) = s.markedValid q.dot := by
  have admitted := admit_wired rank s p steady.toWired fits
  have absent := unmarked_of_absent s steady.domain p.dot fits.fresh
  have node : q.dot ∈ (s.graph q.tuple).ops := (steady.nodes _ _).mpr ⟨q, member, rfl, rfl⟩
  rw [Bool.eq_iff_iff, is_valid_policy_op rank _ admitted q (by simp [member])]
  have same : (admitPolicy s p).Marked = s.Marked := rfl
  rw [same]
  by_cases here : q.tuple = p.tuple
  · rw [here] at node ⊢
    have unmarked : ¬ s.Marked p.dot := by simp [State.Marked, State.markedValid, absent]
    rw [Conflict.accepted_old _ _ p.dot (admit_extends rank s p steady.toWired fits) rank
      (graph_ranked rank s steady.toWired p.tuple) s.Marked q.dot node unmarked]
    exact (graph_settled rank s steady p.tuple q.dot node).symm
  · rw [admit_graph_elsewhere s p q.tuple here]
    exact (graph_settled rank s steady q.tuple q.dot node).symm

omit steady fits in
theorem earlier_logged (before after : List Operation) (x : Operation)
    (split : (admitPolicy s p).log = before ++ x :: after) (o : Operation) (earlier : o ∈ before) : o ∈ s.log := by
  rw [admit_log] at split
  rcases List.eq_nil_or_concat after with rfl | ⟨init, last, rfl⟩
  · rw [List.append_inj_left' split rfl]
    exact earlier
  · rw [List.concat_eq_append, ← List.cons_append, ← List.append_assoc] at split
    rw [List.append_inj_left' split rfl]
    exact List.mem_append_left _ earlier

def firstValue (s : State) (p : PolicyOp) (d : Dot) : Bool :=
  if d = p.dot then isValid (admitPolicy s p) (.policy p) else s.markedValid d

theorem first_round (q : PolicyOp) (member : .policy q ∈ (admitPolicy s p).log) :
    (sweep (admitPolicy s p)).valid q.dot = some (firstValue s p q.dot) := by
  have admitted := admit_wired rank s p steady.toWired fits
  rw [sweep_eq]
  refine recheck_policies _ admitted.nodup (firstValue s p) _ ?_ q member
  intro before x after v split done waiting
  have xIn : .policy x ∈ (admitPolicy s p).log := split ▸ (by simp)
  have agree : ∀ d, IsPolicyDot (admitPolicy s p).log d → v d = s.valid d := by
    rintro d ⟨r, rIn, rfl⟩
    rcases List.mem_append.mp (split ▸ rIn) with earlier | later
    · have old := earlier_logged s p before after _ split _ earlier
      have different : r.dot ≠ p.dot := fits.fresh _ old
      rw [done r earlier, firstValue, if_neg different]
      exact (settled_value rank s steady _ old).symm
    · exact waiting r later
  rw [is_valid_policy_agree rank _ admitted v s.valid agree x xIn, firstValue]
  change isValid (admitPolicy s p) (.policy x) = _
  rcases (mem_admit_log s p x).mp xIn with old | rfl
  · have different : x.dot ≠ p.dot := fits.fresh _ old
    rw [if_neg different]
    exact admit_keeps_old rank s p steady fits x old
  · rw [if_pos rfl]

open Classical in
noncomputable def afterArrival (s : State) (p : PolicyOp) (d : Dot) : Bool :=
  if d ∈ ((admitPolicy s p).dagAt p.tuple).nodes then
    decide (Conflict.Arrived ((admitPolicy s p).graph p.tuple) p.dot s.Marked d)
  else s.markedValid d

omit steady fits in
theorem after_arrival_here (d : Dot) (node : d ∈ ((admitPolicy s p).dagAt p.tuple).nodes) :
    afterArrival s p d = true ↔ Conflict.Arrived ((admitPolicy s p).graph p.tuple) p.dot s.Marked d := by
  classical
  rw [afterArrival, if_pos node]
  exact decide_eq_true_iff

omit steady in
theorem after_arrival_elsewhere (wired : Wired rank s) (q : PolicyOp)
    (member : .policy q ∈ (admitPolicy s p).log) (other : q.tuple ≠ p.tuple) :
    afterArrival s p q.dot = s.markedValid q.dot := by
  have admitted := admit_wired rank s p wired fits
  rw [afterArrival, if_neg]
  intro node
  obtain ⟨r, rIn, tuple, dot⟩ := (admitted.nodes _ _).mp node
  exact other ((other_tuple_dot _ admitted.nodup q r member rIn dot.symm).trans tuple)

section Between

variable (v : Dot → Option Bool)
variable (value : ∀ r, .policy r ∈ (admitPolicy s p).log →
  (v r.dot).getD false = afterArrival s p r.dot ∨ (v r.dot).getD false = firstValue s p r.dot)
variable (x : PolicyOp) (xIn : .policy x ∈ (admitPolicy s p).log)

include value xIn

theorem between_here (here : x.tuple = p.tuple) (deps : ∀ a ∈ x.deps, (v a).getD false = afterArrival s p a) :
    isValid ((admitPolicy s p).withValid v) (.policy x) = afterArrival s p x.dot := by
  have admitted := admit_wired rank s p steady.toWired fits
  have accepted : isValid (admitPolicy s p) (.policy p) = true ↔
      ((admitPolicy s p).graph p.tuple).Accepted s.Marked p.dot :=
    is_valid_policy_op rank _ admitted p (by simp)
  have node : x.dot ∈ ((admitPolicy s p).dagAt p.tuple).nodes := (admitted.nodes _ _).mpr ⟨x, xIn, here, rfl⟩
  rw [Bool.eq_iff_iff, is_valid_policy_op rank _ (wired_with_valid rank _ v admitted) x xIn, here,
    after_arrival_here s p x.dot node]
  change ((admitPolicy s p).graph p.tuple).Accepted ((admitPolicy s p).withValid v).Marked x.dot ↔ _
  apply Conflict.arrived_between _ _ p.dot (admit_extends rank s p steady.toWired fits) rank
    (graph_ranked rank s steady.toWired p.tuple) s.Marked (graph_settled rank s steady p.tuple) _ x.dot node
  · intro a edge
    have dep : a ∈ x.deps := (parents_of_op rank _ admitted x xIn a).mp (here ▸ edge)
    have aNode := (((admitPolicy s p).dagAt p.tuple).endpoints a x.dot edge).1
    rw [← after_arrival_here s p a aNode, State.Marked, State.markedValid, with_valid_valid, deps a dep]
  · intro y yNode arrived
    obtain ⟨r, rIn, _, rfl⟩ := (admitted.nodes _ _).mp yNode
    rw [State.Marked, State.markedValid, with_valid_valid]
    rcases value r rIn with late | early
    · rw [late]
      exact (after_arrival_here s p r.dot yNode).mpr arrived
    · rw [early, firstValue]
      rcases arrived with ⟨same, byRule⟩ | ⟨old, valid, _⟩
      · rw [if_pos same]
        exact accepted.mpr byRule
      · rw [if_neg old]
        exact valid
  · intro y yNode marked
    obtain ⟨r, rIn, _, rfl⟩ := (admitted.nodes _ _).mp yNode
    rw [State.Marked, State.markedValid, with_valid_valid] at marked
    rcases value r rIn with late | early
    · rw [late] at marked
      rcases (after_arrival_here s p r.dot yNode).mp marked with new | old
      · exact Or.inl new
      · exact Or.inr ⟨old.1, old.2.1⟩
    · rw [early, firstValue] at marked
      by_cases same : r.dot = p.dot
      · rw [if_pos same] at marked
        exact Or.inl ⟨same, accepted.mp marked⟩
      · rw [if_neg same] at marked
        exact Or.inr ⟨same, marked⟩

theorem between_elsewhere (other : x.tuple ≠ p.tuple) :
    isValid ((admitPolicy s p).withValid v) (.policy x) = afterArrival s p x.dot := by
  have admitted := admit_wired rank s p steady.toWired fits
  have old : .policy x ∈ s.log :=
    ((mem_admit_log s p x).mp xIn).resolve_right (fun same => other (congrArg PolicyOp.tuple same))
  rw [Bool.eq_iff_iff, is_valid_policy_op rank _ (wired_with_valid rank _ v admitted) x xIn,
    after_arrival_elsewhere rank s p fits steady.toWired x xIn other,
    ← admit_keeps_old rank s p steady fits x old, is_valid_policy_op rank _ admitted x xIn]
  apply Conflict.accepted_congr
  · exact fun a edge => (((admitPolicy s p).dagAt x.tuple).endpoints a x.dot edge).1
  · intro y yNode
    obtain ⟨r, rIn, tuple, rfl⟩ := (admitted.nodes _ _).mp yNode
    have rOther : r.tuple ≠ p.tuple := tuple ▸ other
    have unchanged : (v r.dot).getD false = s.markedValid r.dot := by
      rcases value r rIn with late | early
      · rw [late, after_arrival_elsewhere rank s p fits steady.toWired r rIn rOther]
      · have apart : r.dot ≠ p.dot := fun same =>
          rOther (other_tuple_dot _ admitted.nodup r p rIn (by simp) same)
        rw [early, firstValue, if_neg apart]
    rw [State.Marked, State.markedValid, with_valid_valid, unchanged]
    exact Iff.rfl

theorem between_value (deps : ∀ a ∈ x.deps, (v a).getD false = afterArrival s p a) :
    isValid ((admitPolicy s p).withValid v) (.policy x) = afterArrival s p x.dot := by
  by_cases here : x.tuple = p.tuple
  · exact between_here rank s p steady fits v value x xIn here deps
  · exact between_elsewhere rank s p steady fits v value x xIn here

end Between

omit steady fits in
theorem sweep_twice : sweep (sweep (admitPolicy s p)) = (admitPolicy s p).withValid
    (recheckAll (sweep (admitPolicy s p)) (sweep (admitPolicy s p)).log (sweep (admitPolicy s p)).valid) := by
  rw [sweep_eq (sweep (admitPolicy s p)), sweep_eq (admitPolicy s p), with_valid_twice]

-- An accepted winner takes effect, and what it voids goes, within one round.
theorem second_round (q : PolicyOp) (member : .policy q ∈ (admitPolicy s p).log) :
    (sweep (sweep (admitPolicy s p))).valid q.dot = some (afterArrival s p q.dot) := by
  have admitted := admit_wired rank s p steady.toWired fits
  have firstState := sweep_eq (admitPolicy s p)
  have logEq : (sweep (admitPolicy s p)).log = (admitPolicy s p).log := by rw [firstState, with_valid_log]
  rw [sweep_twice, with_valid_valid]
  refine recheck_policies (sweep (admitPolicy s p)) (logEq ▸ admitted.nodup) (afterArrival s p) _ ?_ q (logEq ▸ member)
  intro before x after v split done waiting
  rw [logEq] at split
  have xIn : .policy x ∈ (admitPolicy s p).log := split ▸ (by simp)
  rw [firstState, with_valid_twice]
  apply between_value rank s p steady fits v _ x xIn
  · intro a dep
    obtain ⟨r, earlier, rfl⟩ := dep_earlier rank _ admitted before after x split a dep
    rw [done r earlier, Option.getD_some]
  · intro r rIn
    rcases List.mem_append.mp (split ▸ rIn) with earlier | later
    · exact Or.inl (by rw [done r earlier, Option.getD_some])
    · exact Or.inr (by rw [waiting r later, first_round rank s p steady fits r rIn, Option.getD_some])

theorem second_round_settled : PoliciesSettled (sweep (sweep (admitPolicy s p))) := by
  have admitted := admit_wired rank s p steady.toWired fits
  have second := second_round rank s p steady fits
  rw [sweep_twice] at second ⊢
  simp only [with_valid_valid] at second
  intro x xIn
  rw [with_valid_log] at xIn
  rw [with_valid_valid, second x xIn, Option.some.injEq]
  refine (between_value rank s p steady fits _ ?_ x xIn ?_).symm
  · exact fun r rIn => Or.inl (by rw [second r rIn, Option.getD_some])
  · intro a dep
    obtain ⟨r, rIn, _, rfl⟩ := admitted.deps x xIn a dep
    rw [second r rIn, Option.getD_some]

omit fits in
theorem effect_policy_domain (d : Dot) (present : (effectPolicy s p).valid d ≠ none) :
    ∃ o ∈ (effectPolicy s p).log, o.dot = d := by
  obtain ⟨v, frame, elsewhere⟩ := effect_policy_frame s p
  rw [frame, with_valid_valid] at present
  rw [frame, with_valid_log]
  by_contra absent
  have fresh : ∀ o ∈ (admitPolicy s p).log, o.dot ≠ d := fun o member dot => absent ⟨o, member, dot⟩
  obtain ⟨o, member, dot⟩ := steady.domain d ((elsewhere d fresh) ▸ present)
  exact fresh o (by simp [member]) dot

theorem effect_policy_wired : Wired rank (effectPolicy s p) := by
  obtain ⟨v, frame, _⟩ := effect_policy_frame s p
  exact frame ▸ wired_with_valid rank _ v (admit_wired rank s p steady.toWired fits)

section Linked

variable (linked : DocsLinked (admitPolicy s p))

include linked

omit steady fits in
theorem twice_linked : DocsLinked (sweep (sweep (admitPolicy s p))) := by
  rw [sweep_twice]
  exact linked

-- The first round adds the op, the second voids what it defeats, the third
-- brings the documents up to date and the fourth ends the loop.
theorem effect_policy_rounds :
    effectPolicy s p = sweep^[3] (admitPolicy s p) ∧ AllSettled (sweep^[3] (admitPolicy s p)) ∧
      (rebuildRounds (maxIters (admitPolicy s p)) (admitPolicy s p)).2.2 = true := by
  have wired : Wired rank (sweep (sweep (admitPolicy s p))) :=
    sweep_twice s p ▸ wired_with_valid rank _ _ (admit_wired rank s p steady.toWired fits)
  have settled : AllSettled (sweep^[3] (admitPolicy s p)) :=
    (sweep_settles rank _ wired (twice_linked s p linked) (second_round_settled rank s p steady fits)).1
  have enough : 3 < maxIters (admitPolicy s p) := by
    rw [maxIters]
    omega
  obtain ⟨state, broke⟩ := rounds_reach 3 _ _ enough settled
  exact ⟨state, settled, broke⟩

theorem effect_policy_value (q : PolicyOp) (member : .policy q ∈ (admitPolicy s p).log) :
    (effectPolicy s p).valid q.dot = some (afterArrival s p q.dot) := by
  have wired : Wired rank (sweep (sweep (admitPolicy s p))) :=
    sweep_twice s p ▸ wired_with_valid rank _ _ (admit_wired rank s p steady.toWired fits)
  have logEq : (sweep (sweep (admitPolicy s p))).log = (admitPolicy s p).log := by rw [sweep_twice, with_valid_log]
  have kept := (sweep_settles rank _ wired (twice_linked s p linked) (second_round_settled rank s p steady fits)).2 q.dot
    ⟨q, logEq ▸ member, rfl⟩
  rw [(effect_policy_rounds rank s p steady fits linked).1]
  exact kept.trans (second_round rank s p steady fits q member)

theorem effect_policy_settled : AllSettled (effectPolicy s p) := by
  obtain ⟨state, settled, _⟩ := effect_policy_rounds rank s p steady fits linked
  exact state ▸ settled

theorem effect_policy_resolved : Resolved rank (effectPolicy s p) := by
  refine resolved_of_every rank _ (effect_policy_wired rank s p steady fits) ?_
    (effect_policy_settled rank s p steady fits linked) (effect_policy_domain rank s p steady)
  obtain ⟨v, frame, _⟩ := effect_policy_frame s p
  rw [frame]
  exact linked

end Linked

end Effect

theorem effect_policy_sound (rank : Dot → Nat) (s : State) (p : PolicyOp) (sound : Sound rank s)
    (arrives : PolicyArrives rank s p) : Sound rank (effectPolicy s p) := by
  have linked := admit_linked s p sound.linked
  obtain ⟨v, frame, _⟩ := effect_policy_frame s p
  refine ⟨frame ▸ consistent_with_valid rank _ v (admit_consistent rank s p sound.toConsistent arrives), ?_, ?_⟩
  · exact effect_policy_settled rank s p sound.steady arrives.fits linked
  · exact effect_policy_domain rank s p sound.steady

section Document

variable (rank : Dot → Nat) (s : State) (d : DocOp) (fresh : ∀ o ∈ s.log, o.dot ≠ d.dot)

theorem effect_document_eq : effectDocument s d =
    (logDocument s d).withValid (Function.update s.valid d.dot (some (isValidDocument (logDocument s d) d))) := rfl

@[simp] theorem effect_document_log : (effectDocument s d).log = s.log ++ [.document d] := rfl

@[simp] theorem effect_document_me : (effectDocument s d).me = s.me := rfl

@[simp] theorem effect_document_strategy : (effectDocument s d).strategy = s.strategy := rfl

theorem policy_logged (p : PolicyOp) : .policy p ∈ (logDocument s d).log ↔ .policy p ∈ s.log := by
  simp [logDocument, State.noteN]

theorem log_document_graph (t : AccessTuple) : (logDocument s d).graph t = s.graph t := by
  have wins : ((logDocument s d).graph t).wins = (s.graph t).wins := by
    funext x
    simp only [State.graph, policy_logged]
    rfl
  rw [State.graph, State.graph, Conflict.Graph.mk.injEq]
  exact ⟨rfl, rfl, wins⟩

include fresh

theorem log_document_wired (wired : Wired rank s) : Wired rank (logDocument s d) := by
  have logEq : (logDocument s d).log = s.log ++ [.document d] := rfl
  have same := policy_logged s d
  constructor
  · exact dots_append_nodup Operation.dot s.log (.document d) wired.nodup fresh
  · intro t a
    simp only [same]
    exact wired.nodes t a
  · intro t a b
    simp only [same]
    exact wired.parents t a b
  · simpa only [same] using wired.deps
  · rw [logEq, List.pairwise_append]
    refine ⟨wired.ordered, by simp, ?_⟩
    intro earlier member later last p equal dep
    subst equal
    have value : later.dot = d.dot := by rw [List.mem_singleton.mp last]; rfl
    rw [value] at dep
    obtain ⟨q, qIn, _, dot⟩ := wired.deps p member d.dot dep
    exact fresh _ qIn dot
  · simpa only [same] using wired.rankDep

theorem log_document_policy (wired : Wired rank s) (p : PolicyOp) (member : .policy p ∈ s.log) :
    isValid (logDocument s d) (.policy p) = isValid s (.policy p) := by
  rw [Bool.eq_iff_iff, is_valid_policy_op rank _ (log_document_wired rank s d fresh wired) p ((policy_logged s d p).mpr member),
    is_valid_policy_op rank s wired p member, log_document_graph s d]
  exact Iff.rfl

theorem log_document_value (wired : Wired rank s) (o : Operation) (member : o ∈ s.log) :
    isValid (logDocument s d) o = isValid s o := by
  have logged := log_document_wired rank s d fresh wired
  cases o with
  | policy p => exact log_document_policy rank s d fresh wired p member
  | document e =>
      apply is_valid_document_same s (logDocument s d) e rfl rfl
      · exact fun _ _ => rfl
      · intro n node
        obtain ⟨p, pIn, _, dot⟩ := (wired.nodes e.tuple n).mp node
        rw [(policy_op_some_iff s wired.nodup n p).mpr ⟨pIn, dot⟩]
        exact (policy_op_some_iff _ logged.nodup n p).mpr ⟨(policy_logged s d p).mpr pIn, dot⟩
      · exact fun _ _ => rfl

theorem document_kept (a : Dot) (policy : IsPolicyDot (logDocument s d).log a) :
    Function.update s.valid d.dot (some (isValidDocument (logDocument s d) d)) a = s.valid a := by
  obtain ⟨p, pIn, rfl⟩ := policy
  exact Function.update_of_ne (fresh _ ((policy_logged s d p).mp pIn)) _ _

omit fresh in
theorem effect_document_domain (domain : ∀ a, s.valid a ≠ none → ∃ o ∈ s.log, o.dot = a) (a : Dot)
    (present : (effectDocument s d).valid a ≠ none) : ∃ o ∈ (effectDocument s d).log, o.dot = a := by
  by_cases here : a = d.dot
  · exact ⟨.document d, by simp, here.symm⟩
  · rw [effect_document_eq, with_valid_valid, Function.update_of_ne here] at present
    obtain ⟨o, member, dot⟩ := domain a present
    exact ⟨o, by simp [member], dot⟩

theorem effect_document_steady (steady : Steady rank s) : Steady rank (effectDocument s d) := by
  have logged := log_document_wired rank s d fresh steady.toWired
  refine ⟨wired_with_valid rank _ _ logged, ?_, effect_document_domain s d steady.domain⟩
  intro p member
  have old : .policy p ∈ s.log := (policy_logged s d p).mp member
  rw [effect_document_eq, is_valid_policy_agree rank _ logged _ s.valid (document_kept s d fresh) p member,
    with_valid_valid, document_kept s d fresh p.dot ⟨p, member, rfl⟩, steady.settled p old]
  exact congrArg some (log_document_policy rank s d fresh steady.toWired p old).symm

-- No op reads a document's flag, so the one evaluation on arrival settles it.
theorem effect_document_settled (wired : Wired rank s) (settled : AllSettled s) (linked : DocsLinked (logDocument s d)) :
    AllSettled (effectDocument s d) := by
  have logged := log_document_wired rank s d fresh wired
  intro o member
  have value : isValid (effectDocument s d) o = isValid (logDocument s d) o :=
    is_valid_agree rank _ logged _ s.valid (document_kept s d fresh) linked o member
  rw [value, effect_document_eq, with_valid_valid]
  rcases List.mem_append.mp member with old | new
  · rw [Function.update_of_ne (fresh o old), settled o old, log_document_value rank s d fresh wired o old]
  · rw [List.mem_singleton.mp new, dot_document, Function.update_self]
    rfl

theorem effect_document_resolved (resolved : Resolved rank s) (linked : DocsLinked (logDocument s d)) :
    Resolved rank (effectDocument s d) :=
  resolved_of_every rank _ (wired_with_valid rank _ _ (log_document_wired rank s d fresh resolved.toWired)) linked
    (effect_document_settled rank s d fresh resolved.toWired resolved.every linked)
    (effect_document_domain s d resolved.domain)

end Document

section Sound

variable (rank : Dot → Nat) (s : State) (d : DocOp) (sound : Sound rank s) (arrives : DocumentArrives s d)

include sound arrives

theorem log_document_consistent : Consistent rank (logDocument s d) := by
  have logged := log_document_wired rank s d arrives.fresh sound.wired
  have same := policy_logged s d
  refine ⟨logged.nodup, logged.nodes, logged.parents, logged.deps, ?_, logged.ordered, ?_, ?_⟩
  · intro e member a dep
    simp only [same]
    rcases List.mem_append.mp member with old | new
    · exact sound.docDeps e old a dep
    · have equal : e = d := by simpa using new
      subst equal
      exact arrives.deps a dep
  · simpa only [same] using sound.rankRoot
  · simpa only [same] using sound.rankDep

theorem effect_document_sound : Sound rank (effectDocument s d) := by
  have logged := log_document_consistent rank s d sound arrives
  refine ⟨consistent_with_valid rank _ _ logged, ?_, ?_⟩
  · exact effect_document_settled rank s d arrives.fresh sound.wired sound.settled logged.linked
  · exact effect_document_domain s d sound.domain

end Sound

theorem sound_rebuild (rank : Dot → Nat) (s : State) (sound : Sound rank s) : rebuildValidity s = (s, []) := by
  have rounds : maxIters s = s.log.length * 4 + 7 + 1 := rfl
  rw [rebuildValidity, rounds, settled_rebuild s sound.settled]

theorem bootstrap_dag (me : SiteId) (strategy : Strategy) (t : AccessTuple) :
    ((State.new me strategy).bootstrapSelf).dagAt t = Dag.new := by
  have entry : ((State.new me strategy).bootstrapSelf).g t = none ∨
      ((State.new me strategy).bootstrapSelf).g t = some Dag.new := by
    simp only [State.bootstrapSelf, State.new, State.tupleMut, List.foldl_cons, List.foldl_nil, id]
    by_cases a : t = ⟨me, .admin⟩ <;> by_cases r : t = ⟨me, .read⟩ <;> by_cases w : t = ⟨me, .write⟩ <;>
      simp [a, r, w]
  rcases entry with absent | present
  · rw [State.dagAt, absent, Option.getD_none]
  · rw [State.dagAt, present, Option.getD_some]

theorem initial_sound (rank : Dot → Nat) (me : SiteId) (strategy : Strategy) :
    Sound rank ((State.new me strategy).bootstrapSelf) := by
  have empty := bootstrap_dag me strategy
  have log : ((State.new me strategy).bootstrapSelf).log = [] := rfl
  refine ⟨⟨by simp [log], ?_, ?_, by simp [log], by simp [log], by simp [log], by simp [log], by simp [log]⟩,
    by simp [AllSettled, log], fun d present => absurd rfl present⟩
  · intro t d
    rw [empty, log]
    simp [Dag.new]
  · intro t a b
    rw [empty, log]
    simp [Dag.new]

end Accure
