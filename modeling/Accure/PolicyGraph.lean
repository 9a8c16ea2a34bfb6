import Accure.DagReach
import Accure.Integrate
import Accure.Library.Conflict

set_option autoImplicit false

namespace Accure

def State.dagAt (s : State) (t : AccessTuple) : Dag := (s.g t).getD Dag.new

-- The policy ops of one tuple as a graph of opposed operations: the strategy
-- says which effect wins.
def State.graph (s : State) (t : AccessTuple) : Conflict.Graph Dot where
  ops := {d | d ∈ (s.dagAt t).nodes}
  dep a b := a ∈ (s.dagAt t).parents b
  wins d := ∃ p, .policy p ∈ s.log ∧ p.tuple = t ∧ p.dot = d ∧ s.strategy.favors p.effect = true

def State.Marked (s : State) (d : Dot) : Prop := s.markedValid d = true

-- The derived maps of a state mirror its log. The rank of a policy op is the
-- length of any chain of dependencies below it.
structure Consistent (rank : Dot → Nat) (s : State) : Prop where
  nodup : (s.log.map Operation.dot).Nodup
  nodes : ∀ t d, d ∈ (s.dagAt t).nodes ↔ ∃ p, .policy p ∈ s.log ∧ p.tuple = t ∧ p.dot = d
  parents : ∀ t a b, a ∈ (s.dagAt t).parents b ↔ ∃ p, .policy p ∈ s.log ∧ p.tuple = t ∧ p.dot = b ∧ a ∈ p.deps
  deps : ∀ p, .policy p ∈ s.log → ∀ a ∈ p.deps, ∃ q, .policy q ∈ s.log ∧ q.tuple = p.tuple ∧ q.dot = a
  docDeps : ∀ d, .document d ∈ s.log → ∀ a ∈ d.deps, ∃ q, .policy q ∈ s.log ∧ q.tuple = d.tuple ∧ q.dot = a
  ordered : s.log.Pairwise (fun earlier later => ∀ p, earlier = .policy p → later.dot ∉ p.deps)
  rankRoot : ∀ p, .policy p ∈ s.log → p.deps = [] → rank p.dot = 1
  rankDep : ∀ p, .policy p ∈ s.log → ∀ a ∈ p.deps, rank p.dot = rank a + 1

structure Wired (rank : Dot → Nat) (s : State) : Prop where
  nodup : (s.log.map Operation.dot).Nodup
  nodes : ∀ t d, d ∈ (s.dagAt t).nodes ↔ ∃ p, .policy p ∈ s.log ∧ p.tuple = t ∧ p.dot = d
  parents : ∀ t a b, a ∈ (s.dagAt t).parents b ↔ ∃ p, .policy p ∈ s.log ∧ p.tuple = t ∧ p.dot = b ∧ a ∈ p.deps
  deps : ∀ p, .policy p ∈ s.log → ∀ a ∈ p.deps, ∃ q, .policy q ∈ s.log ∧ q.tuple = p.tuple ∧ q.dot = a
  ordered : s.log.Pairwise (fun earlier later => ∀ p, earlier = .policy p → later.dot ∉ p.deps)
  rankDep : ∀ p, .policy p ∈ s.log → ∀ a ∈ p.deps, rank a < rank p.dot

theorem Consistent.wired {rank : Dot → Nat} {s : State} (consistent : Consistent rank s) : Wired rank s := by
  refine ⟨consistent.nodup, consistent.nodes, consistent.parents, consistent.deps, consistent.ordered, ?_⟩
  intro p member a dep
  have step := consistent.rankDep p member a dep
  omega

theorem same_dot_same_op (log : List Operation) (nodup : (log.map Operation.dot).Nodup) (a b : Operation)
    (aIn : a ∈ log) (bIn : b ∈ log) (same : a.dot = b.dot) : a = b :=
  List.inj_on_of_nodup_map nodup aIn bIn same

theorem op_some_iff (s : State) (nodup : (s.log.map Operation.dot).Nodup) (d : Dot) (o : Operation) :
    s.op d = some o ↔ o ∈ s.log ∧ o.dot = d := by
  constructor
  · intro found
    exact ⟨List.mem_of_find?_eq_some found, by simpa using List.find?_some found⟩
  · rintro ⟨member, rfl⟩
    cases found : s.op o.dot with
    | none => simpa using List.find?_eq_none.mp found o member
    | some other =>
        have otherIn := List.mem_of_find?_eq_some found
        have otherDot : other.dot = o.dot := by simpa using List.find?_some found
        rw [same_dot_same_op s.log nodup other o otherIn member otherDot]

theorem policy_op_some_iff (s : State) (nodup : (s.log.map Operation.dot).Nodup) (d : Dot) (p : PolicyOp) :
    s.policyOp d = some p ↔ .policy p ∈ s.log ∧ p.dot = d := by
  rw [State.policyOp, Option.bind_eq_some_iff]
  constructor
  · rintro ⟨o, found, policy⟩
    rw [as_policy_some] at policy
    subst policy
    exact (op_some_iff s nodup d _).mp found
  · rintro ⟨member, dot⟩
    exact ⟨.policy p, (op_some_iff s nodup d _).mpr ⟨member, dot⟩, rfl⟩

theorem policy_op_dot (s : State) (d : Dot) (p : PolicyOp) (found : s.policyOp d = some p) : p.dot = d := by
  rw [State.policyOp, Option.bind_eq_some_iff] at found
  obtain ⟨o, op, policy⟩ := found
  rw [as_policy_some] at policy
  subst policy
  have chosen := List.find?_some op
  exact of_decide_eq_true chosen

theorem conflicts_iff (s : State) (p : PolicyOp) (dag : Dag) (c : PolicyOp) : c ∈ conflicts s p dag ↔
    c.dot ∈ dag.nodes ∧ s.policyOp c.dot = some c ∧ c.dot ≠ p.dot ∧ ¬ dag.Before c.dot p.dot ∧
      ¬ dag.Before p.dot c.dot ∧ c.effect ≠ p.effect := by
  rw [conflicts, List.mem_filterMap]
  constructor
  · rintro ⟨n, node, chosen⟩
    by_cases same : n = p.dot
    · simp [same] at chosen
    · by_cases above : dag.Before n p.dot
      · simp [same, above] at chosen
      · by_cases below : dag.Before p.dot n
        · simp [same, above, below] at chosen
        · cases found : s.policyOp n with
          | none => simp [same, above, below, found] at chosen
          | some q =>
              by_cases agree : q.effect = p.effect
              · simp [same, above, below, found, agree] at chosen
              · have picked : q = c := by simpa [same, above, below, found, agree] using chosen
                subst picked
                obtain rfl := policy_op_dot s n q found
                exact ⟨node, found, same, above, below, agree⟩
  · rintro ⟨node, found, different, above, below, agree⟩
    exact ⟨c.dot, node, by simp [different, above, below, found, agree]⟩

theorem favors_opposite (strategy : Strategy) (a b : Effect) (different : a ≠ b) :
    strategy.favors a = !strategy.favors b := by
  cases strategy <;> cases a <;> cases b <;> simp_all [Strategy.favors]

def allowedBy : Option (Nat × PolicyOp) → Bool
  | none => true
  | some (_, p) => p.effect = .allow

theorem deepest_empty (s : State) (considers : PolicyOp → Bool) : deepest s Dag.new considers = none := rfl

-- An absent tuple and a tuple with an empty DAG read the same.
theorem eval_eq (s : State) (site : SiteId) (right : Right) :
    eval s site right = allowedBy (deepest s (s.dagAt ⟨site, right⟩) (fun _ => true)) := by
  rw [eval, State.tuple, State.dagAt]
  cases s.g ⟨site, right⟩ with
  | none => rfl
  | some dag =>
      cases nodes : dag.nodes.elems with
      | nil => simp [deepest, nodes, allowedBy]
      | cons head tail =>
          simp only [nodes, List.isEmpty_cons, Bool.false_eq_true, if_false, Option.getD_some]
          cases deepest s dag (fun _ => true) <;> rfl

theorem is_valid_document_eq (s : State) (d : DocOp) :
    isValidDocument s d = (allowedBy (deepest s (s.dagAt d.tuple) (fun p => covers p d.dot)) && depsAccepted s d) := by
  rw [isValidDocument, State.tuple, State.dagAt, DocOp.tuple]
  cases s.g ⟨d.dot.site, .write⟩ with
  | none => simp [deepest_empty, allowedBy]
  | some dag =>
      simp only [Option.getD_some]
      cases deepest s dag (fun p => covers p d.dot) with
      | none => simp [allowedBy]
      | some best => cases allowed : decide (best.2.effect = .allow) <;> simp [allowedBy, allowed]

theorem deepest_same (s other : State) (dag : Dag) (considers : PolicyOp → Bool) (strategy : other.strategy = s.strategy)
    (marks : ∀ n ∈ dag.nodes, other.markedValid n = s.markedValid n)
    (ops : ∀ n ∈ dag.nodes, other.policyOp n = s.policyOp n) : deepest other dag considers = deepest s dag considers := by
  apply List.foldl_ext
  intro best n node
  simp only [deepestStep, marks n node, ops n node, strategy]

theorem deps_accepted_same (s other : State) (d : DocOp) (values : ∀ a ∈ d.deps, other.valid a = s.valid a) :
    depsAccepted other d = depsAccepted s d := by
  rw [depsAccepted, depsAccepted, Bool.eq_iff_iff, List.all_eq_true, List.all_eq_true]
  constructor
  · exact fun all a dep => by simpa only [values a dep] using all a dep
  · exact fun all a dep => by simpa only [values a dep] using all a dep

theorem is_valid_document_same (s other : State) (d : DocOp) (strategy : other.strategy = s.strategy)
    (dag : other.dagAt d.tuple = s.dagAt d.tuple)
    (marks : ∀ n ∈ (s.dagAt d.tuple).nodes, other.markedValid n = s.markedValid n)
    (ops : ∀ n ∈ (s.dagAt d.tuple).nodes, other.policyOp n = s.policyOp n)
    (values : ∀ a ∈ d.deps, other.valid a = s.valid a) : isValidDocument other d = isValidDocument s d := by
  rw [is_valid_document_eq, is_valid_document_eq, dag, deepest_same s other _ _ strategy marks ops,
    deps_accepted_same s other d values]

section Wired

variable (rank : Dot → Nat) (s : State) (wired : Wired rank s)

include wired

theorem tuple_present (p : PolicyOp) (member : .policy p ∈ s.log) : s.g p.tuple = some (s.dagAt p.tuple) := by
  have node := (wired.nodes p.tuple p.dot).mpr ⟨p, member, rfl, rfl⟩
  cases entry : s.g p.tuple with
  | none => simp [State.dagAt, entry, Dag.new] at node
  | some dag => simp [State.dagAt, entry]

theorem parents_of_op (p : PolicyOp) (member : .policy p ∈ s.log) (a : Dot) :
    a ∈ (s.dagAt p.tuple).parents p.dot ↔ a ∈ p.deps := by
  rw [wired.parents]
  constructor
  · rintro ⟨q, qIn, _, dot, dep⟩
    have same : Operation.policy q = .policy p := same_dot_same_op s.log wired.nodup _ _ qIn member dot
    cases same
    exact dep
  · exact fun dep => ⟨p, member, rfl, rfl, dep⟩

theorem graph_ranked (t : AccessTuple) : (s.graph t).Ranked rank := by
  constructor
  · exact fun a b edge => (s.dagAt t).endpoints a b edge
  · intro a b edge
    obtain ⟨p, member, _, rfl, dep⟩ := (wired.parents t a b).mp edge
    exact wired.rankDep p member a dep

omit wired in
theorem graph_finite (t : AccessTuple) : (s.graph t).ops.Finite :=
  (s.dagAt t).nodes.elems.finite_toSet

theorem wins_iff (p : PolicyOp) (member : .policy p ∈ s.log) :
    (s.graph p.tuple).wins p.dot ↔ s.strategy.favors p.effect = true := by
  constructor
  · rintro ⟨q, qIn, _, dot, favored⟩
    have same : Operation.policy q = .policy p := same_dot_same_op s.log wired.nodup _ _ qIn member dot
    cases same
    exact favored
  · exact fun favored => ⟨p, member, rfl, rfl, favored⟩

theorem mem_conflicts (p : PolicyOp) (t : AccessTuple) (c : PolicyOp) :
    c ∈ conflicts s p (s.dagAt t) ↔
      (.policy c ∈ s.log ∧ c.tuple = t) ∧ (s.graph t).Concurrent p.dot c.dot ∧ c.effect ≠ p.effect := by
  rw [conflicts_iff, policy_op_some_iff s wired.nodup]
  constructor
  · rintro ⟨node, ⟨member, _⟩, different, above, below, agree⟩
    obtain ⟨other, otherIn, tuple, dot⟩ := (wired.nodes t c.dot).mp node
    have equal : Operation.policy other = .policy c := same_dot_same_op s.log wired.nodup _ _ otherIn member dot
    cases equal
    exact ⟨⟨member, tuple⟩, ⟨Ne.symm different, below, above⟩, agree⟩
  · rintro ⟨⟨member, tuple⟩, ⟨different, below, above⟩, agree⟩
    exact ⟨(wired.nodes t c.dot).mpr ⟨c, member, tuple, rfl⟩, ⟨member, rfl⟩, Ne.symm different, above, below, agree⟩

theorem is_valid_policy_iff (p : PolicyOp) (member : .policy p ∈ s.log) :
    isValidPolicy s p (s.dagAt p.tuple) = true ↔ (s.graph p.tuple).Accepted s.Marked p.dot := by
  have wins := wins_iff rank s wired p member
  have deps : (p.deps.all s.markedValid || p.deps.isEmpty) = true ↔
      ∀ a, (s.graph p.tuple).dep a p.dot → s.Marked a := by
    have edges : ∀ a, (s.graph p.tuple).dep a p.dot ↔ a ∈ p.deps := parents_of_op rank s wired p member
    simp only [edges, Bool.or_eq_true, List.all_eq_true, List.isEmpty_iff, State.Marked]
    constructor
    · rintro (all | empty)
      · exact all
      · simp [empty]
    · exact Or.inl
  have defeated : (conflicts s p (s.dagAt p.tuple)).any (fun c => s.markedValid c.dot && !opWinsAgainst s.strategy p c) = true ↔
      ¬ (¬ (s.graph p.tuple).wins p.dot → ∀ y ∈ (s.graph p.tuple).ops, (s.graph p.tuple).wins y → s.Marked y →
        ¬ (s.graph p.tuple).Concurrent p.dot y) := by
    rw [List.any_eq_true, wins]
    constructor
    · rintro ⟨c, conflict, against⟩ undefeated
      obtain ⟨⟨cIn, tuple⟩, concurrent, agree⟩ := (mem_conflicts rank s wired p p.tuple c).mp conflict
      obtain ⟨marked, loses⟩ : s.markedValid c.dot = true ∧ s.strategy.favors p.effect = false := by
        simpa [opWinsAgainst] using against
      have cWins : s.strategy.favors c.effect = true := by rw [favors_opposite s.strategy _ _ agree, loses]; rfl
      exact undefeated (by simp [loses]) c.dot ((wired.nodes _ _).mpr ⟨c, cIn, tuple, rfl⟩)
        ⟨c, cIn, tuple, rfl, cWins⟩ marked concurrent
    · intro refuted
      simp only [Classical.not_imp, not_forall, not_not] at refuted
      obtain ⟨loses, y, _, yWins, marked, concurrent⟩ := refuted
      obtain ⟨c, cIn, tuple, rfl, cWins⟩ := yWins
      have agree : c.effect ≠ p.effect := fun same => loses (same ▸ cWins)
      refine ⟨c, (mem_conflicts rank s wired p p.tuple c).mpr ⟨⟨cIn, tuple⟩, concurrent, agree⟩, ?_⟩
      have marked' : s.markedValid c.dot = true := marked
      simp [opWinsAgainst, loses, marked']
  rw [isValidPolicy, Conflict.Graph.Accepted, ← deps]
  by_cases refuted : (conflicts s p (s.dagAt p.tuple)).any (fun c => s.markedValid c.dot && !opWinsAgainst s.strategy p c) = true
  · rw [if_pos refuted]
    exact ⟨fun impossible => absurd impossible (by simp), fun both => absurd both.2 (defeated.mp refuted)⟩
  · rw [if_neg refuted]
    exact ⟨fun all => ⟨all, not_not.mp (fun fails => refuted (defeated.mpr fails))⟩, fun both => both.1⟩

theorem is_valid_policy_op (p : PolicyOp) (member : .policy p ∈ s.log) :
    isValid s (.policy p) = true ↔ (s.graph p.tuple).Accepted s.Marked p.dot := by
  rw [isValid, State.tuple, tuple_present rank s wired p member]
  exact is_valid_policy_iff rank s wired p member

end Wired

section Consistent

variable (rank : Dot → Nat) (s : State) (consistent : Consistent rank s)

include consistent

theorem dag_graded (t : AccessTuple) : (s.dagAt t).Graded rank := by
  constructor
  · rintro d ⟨node, free⟩
    obtain ⟨p, member, rfl, rfl⟩ := (consistent.nodes t d).mp node
    apply consistent.rankRoot p member
    apply List.eq_nil_iff_forall_not_mem.mpr
    exact fun a dep => free a ((parents_of_op rank s consistent.wired p member a).mpr dep)
  · intro a b edge
    obtain ⟨p, member, _, rfl, dep⟩ := (consistent.parents t a b).mp edge
    exact consistent.rankDep p member a dep

theorem level_rank (t : AccessTuple) (d : Dot) (node : d ∈ (s.dagAt t).nodes) : (s.dagAt t).level d = rank d :=
  level_eq_rank _ rank (dag_graded rank s consistent t) d node

end Consistent

end Accure
