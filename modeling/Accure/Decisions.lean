import Accure.SettledRuns

set_option autoImplicit false

namespace Accure

def State.policies (s : State) : List PolicyOp := s.log.filterMap Operation.asPolicy

@[simp] theorem mem_state_policies (s : State) (p : PolicyOp) : p ∈ s.policies ↔ .policy p ∈ s.log := by
  simp [State.policies, List.mem_filterMap]

def Valid (s : State) (t : AccessTuple) (p : PolicyOp) : Prop := .policy p ∈ s.log ∧ p.tuple = t ∧ s.markedValid p.dot = true

def TopValid (s : State) (t : AccessTuple) (p : PolicyOp) : Prop :=
  Valid s t p ∧ ∀ q, Valid s t q → (s.dagAt t).level q.dot ≤ (s.dagAt t).level p.dot

section Sound

variable (rank : Dot → Nat) (s : State) (sound : Sound rank s) (t : AccessTuple)

theorem candidate_iff (p : PolicyOp) : Candidate s t (fun _ => true) p ↔ Valid s t p :=
  ⟨fun candidate => ⟨candidate.logged, candidate.tuple, candidate.valid⟩,
    fun valid => ⟨valid.1, valid.2.1, valid.2.2, rfl⟩⟩

include sound

theorem valid_node (p : PolicyOp) (valid : Valid s t p) : p.dot ∈ (s.dagAt t).nodes :=
  (sound.nodes t p.dot).mpr ⟨p, valid.1, valid.2.1, rfl⟩

theorem valid_level (p : PolicyOp) (valid : Valid s t p) : (s.dagAt t).level p.dot = rank p.dot :=
  level_rank rank s sound.toConsistent t p.dot (valid_node rank s sound t p valid)

theorem wins_of_tuple (p : PolicyOp) (member : .policy p ∈ s.log) (tuple : p.tuple = t) :
    (s.graph t).wins p.dot ↔ s.strategy.favors p.effect = true :=
  tuple ▸ wins_iff rank s sound.wired p member

theorem opposed_wins (p q : PolicyOp) (pIn : .policy p ∈ s.log) (pTuple : p.tuple = t) (qIn : .policy q ∈ s.log)
    (qTuple : q.tuple = t) (opposed : q.effect ≠ p.effect) : (s.graph t).wins q.dot ↔ ¬ (s.graph t).wins p.dot := by
  rw [wins_of_tuple rank s sound t p pIn pTuple, wins_of_tuple rank s sound t q qIn qTuple,
    favors_opposite s.strategy q.effect p.effect opposed]
  cases s.strategy.favors p.effect <;> simp

-- Of two valid opposite ops one was made with knowledge of the other.
theorem opposites_ordered (p q : PolicyOp) (pValid : Valid s t p) (qValid : Valid s t q) (opposed : q.effect ≠ p.effect) :
    (s.dagAt t).Before p.dot q.dot ∨ (s.dagAt t).Before q.dot p.dot := by
  have settled := graph_settled rank s sound.steady t
  have wins := opposed_wins rank s sound t p q pValid.1 pValid.2.1 qValid.1 qValid.2.1 opposed
  have pNode := valid_node rank s sound t p pValid
  have qNode := valid_node rank s sound t q qValid
  by_cases qWins : (s.graph t).wins q.dot
  · exact Conflict.valid_opposites_ordered (s.graph t) s.Marked settled p.dot q.dot pNode qNode (wins.mp qWins) qWins
      pValid.2.2 qValid.2.2
  · have pWins : (s.graph t).wins p.dot := by
      by_contra loses
      exact qWins (wins.mpr loses)
    exact (Conflict.valid_opposites_ordered (s.graph t) s.Marked settled q.dot p.dot qNode pNode qWins pWins
      qValid.2.2 pValid.2.2).symm

theorem top_answers_opposite (p q : PolicyOp) (pValid : Valid s t p) (qValid : Valid s t q) (opposed : q.effect ≠ p.effect)
    (highest : rank q.dot ≤ rank p.dot) : (s.dagAt t).Before q.dot p.dot :=
  Conflict.top_answers (s.graph t) rank (graph_ranked rank s sound.wired t) s.Marked (graph_settled rank s sound.steady t)
    p.dot q.dot (valid_node rank s sound t p pValid) (valid_node rank s sound t q qValid) pValid.2.2 qValid.2.2
    (opposed_wins rank s sound t p q pValid.1 pValid.2.1 qValid.1 qValid.2.1 opposed) highest

theorem before_rank (a b : Dot) (before : (s.dagAt t).Before a b) : rank a < rank b :=
  before_rank_lt (s.dagAt t) rank (dag_graded rank s sound.toConsistent t) a b before

theorem top_agrees (p q : PolicyOp) (pValid : Valid s t p) (qValid : Valid s t q)
    (highest : ∀ r, Valid s t r → rank r.dot ≤ rank p.dot) (same : rank p.dot ≤ rank q.dot) : q.effect = p.effect := by
  by_contra opposed
  have before := before_rank rank s sound t q.dot p.dot
    (top_answers_opposite rank s sound t p q pValid qValid opposed (highest q qValid))
  omega

theorem some_valid (p : PolicyOp) (member : .policy p ∈ s.log) (tuple : p.tuple = t) : ∃ q, Valid s t q := by
  have node := (sound.nodes t p.dot).mpr ⟨p, member, tuple, rfl⟩
  obtain ⟨d, present, marked⟩ := Conflict.exists_valid (s.graph t) rank (graph_ranked rank s sound.wired t)
    s.Marked (graph_settled rank s sound.steady t) p.dot node
  obtain ⟨q, qIn, qTuple, rfl⟩ := (sound.nodes t d).mp present
  exact ⟨q, qIn, qTuple, marked⟩

theorem eval_chosen (p : PolicyOp) (member : .policy p ∈ s.log) (tuple : p.tuple = t) :
    ∃ q, Valid s t q ∧ (∀ r, Valid s t r → rank r.dot ≤ rank q.dot) ∧ eval s t.site t.right = decide (q.effect = .allow) := by
  obtain ⟨valid, isValid⟩ := some_valid rank s sound t p member tuple
  cases chosen : deepest s (s.dagAt t) (fun _ => true) with
  | none =>
      exact absurd ((candidate_iff s t valid).mpr isValid)
        (deepest_none rank s sound.toConsistent t (fun _ => true) chosen valid)
  | some best =>
      obtain ⟨lvl, q⟩ := best
      obtain ⟨candidate, highest, _⟩ := deepest_chosen rank s sound.toConsistent t (fun _ => true) lvl q chosen
      refine ⟨q, (candidate_iff s t q).mp candidate, fun r valid => highest r ((candidate_iff s t r).mpr valid), ?_⟩
      rw [eval_eq, chosen]
      rfl

-- A valid op that no valid opposite op knows decides.
theorem unanswered_decides (p : PolicyOp) (pValid : Valid s t p)
    (unanswered : ∀ q, Valid s t q → q.effect ≠ p.effect → ¬ (s.dagAt t).Before p.dot q.dot) :
    eval s t.site t.right = decide (p.effect = .allow) := by
  obtain ⟨q, qValid, highest, value⟩ := eval_chosen rank s sound t p pValid.1 pValid.2.1
  by_cases agree : q.effect = p.effect
  · rw [value, agree]
  · rcases opposites_ordered rank s sound t p q pValid qValid agree with after | before
    · exact absurd after (unanswered q qValid agree)
    · have deeper := before_rank rank s sound t q.dot p.dot before
      have bound := highest p pValid
      omega

theorem winner_valid (p : PolicyOp) (member : .policy p ∈ s.log) (tuple : p.tuple = t)
    (favored : s.strategy.favors p.effect = true) (deps : ∀ a ∈ p.deps, s.markedValid a = true) : Valid s t p := by
  subst tuple
  refine ⟨member, rfl, ?_⟩
  have node := (sound.nodes p.tuple p.dot).mpr ⟨p, member, rfl, rfl⟩
  have wins := (wins_iff rank s sound.wired p member).mpr favored
  apply (graph_settled rank s sound.steady p.tuple p.dot node).mpr
  exact ⟨fun a edge => deps a ((parents_of_op rank s sound.wired p member a).mp edge), fun loses => absurd wins loses⟩

theorem eval_of_top (p : PolicyOp) (pValid : Valid s t p) (highest : ∀ r, Valid s t r → rank r.dot ≤ rank p.dot) :
    eval s t.site t.right = decide (p.effect = .allow) := by
  obtain ⟨q, qValid, qHighest, value⟩ := eval_chosen rank s sound t p pValid.1 pValid.2.1
  rw [value, top_agrees rank s sound t p q pValid qValid highest (qHighest p pValid)]

end Sound

theorem eval_unambiguous (strategy : Strategy) (w : World) (run : CausalRun strategy w) (i : SiteId) (t : AccessTuple)
    (present : ∃ p, .policy p ∈ (w.site i).state.log ∧ p.tuple = t) :
    (∃ p, TopValid (w.site i).state t p) ∧
      (∃ effect, (∀ p, TopValid (w.site i).state t p → p.effect = effect) ∧
        eval (w.site i).state t.site t.right = decide (effect = .allow)) ∧
      ∀ p, TopValid (w.site i).state t p → ∀ q, Valid (w.site i).state t q → q.effect ≠ p.effect →
        q.dot ∈ ((w.site i).state.dagAt t).ancestors p.dot := by
  obtain ⟨rank, causal⟩ := causal_run strategy w run
  have sound := causal.sound i
  generalize (w.site i).state = s at present sound ⊢
  have ranked : ∀ p, TopValid s t p → ∀ q, Valid s t q → rank q.dot ≤ rank p.dot := by
    intro p top q qValid
    have levels := top.2 q qValid
    rwa [valid_level rank s sound t q qValid, valid_level rank s sound t p top.1] at levels
  obtain ⟨first, member, tuple⟩ := present
  obtain ⟨best, bestValid, highest, value⟩ := eval_chosen rank s sound t first member tuple
  refine ⟨⟨best, bestValid, ?_⟩, ⟨best.effect, ?_, value⟩, ?_⟩
  · intro q qValid
    rw [valid_level rank s sound t q qValid, valid_level rank s sound t best bestValid]
    exact highest q qValid
  · exact fun p top => top_agrees rank s sound t best p bestValid top.1 highest (ranked p top best bestValid)
  · intro p top q qValid opposed
    rw [mem_ancestors]
    exact top_answers_opposite rank s sound t p q top.1 qValid opposed (ranked p top q qValid)

def contest : List Action :=
  [.policy "A" "C" .write .allow, .policy "A" "C" .write .deny, .policy "B" "C" .write .allow,
    .sync "A" "B" [⟨"A", 1⟩, ⟨"A", 2⟩, ⟨"B", 1⟩], .rebuild "A"]

theorem contest_runs : (play .integrity contest).isSome = true := by decide +kernel

def contested : World := (play .integrity contest).get contest_runs

theorem contested_unambiguous : ∃ p, TopValid (contested.site "A").state ⟨"C", .write⟩ p :=
  (eval_unambiguous .integrity contested (played .integrity contest contest_runs) "A" ⟨"C", .write⟩
    ⟨⟨⟨"A", 1⟩, "C", .write, .allow, [], none, []⟩, by decide +kernel, by decide⟩).1

def Unanswered (s : State) (p : PolicyOp) : Prop :=
  ∀ q ∈ s.policies, q.tuple = p.tuple → q.effect ≠ p.effect → p.dot ∉ (s.dagAt p.tuple).ancestors q.dot

instance (s : State) (p : PolicyOp) : Decidable (Unanswered s p) :=
  inferInstanceAs (Decidable (∀ q ∈ s.policies, q.tuple = p.tuple → q.effect ≠ p.effect →
    p.dot ∉ (s.dagAt p.tuple).ancestors q.dot))

theorem unanswered_winner (strategy : Strategy) (w : World) (run : CausalRun strategy w) (i : SiteId) (p : PolicyOp)
    (member : .policy p ∈ (w.site i).state.log) (favored : strategy.favors p.effect = true)
    (deps : ∀ a ∈ p.deps, (w.site i).state.markedValid a = true) (unanswered : Unanswered (w.site i).state p) :
    eval (w.site i).state p.target p.right = decide (p.effect = .allow) := by
  obtain ⟨rank, causal⟩ := causal_run strategy w run
  have sound := causal.sound i
  rw [← causal.strategies i] at favored
  have valid := winner_valid rank _ sound p.tuple p member rfl favored deps
  apply unanswered_decides rank _ sound p.tuple p valid
  intro q qValid opposed before
  exact unanswered q ((mem_state_policies _ q).mpr qValid.1) qValid.2.1 opposed ((mem_ancestors _ _ _).mpr before)

theorem unanswered_decision_holds :
    (∀ w, CausalRun .integrity w → ∀ i p, .policy p ∈ (w.site i).state.log → p.effect = .deny →
      (∀ a ∈ p.deps, (w.site i).state.markedValid a = true) → Unanswered (w.site i).state p →
      eval (w.site i).state p.target p.right = false) ∧
    (∀ w, CausalRun .accessibility w → ∀ i p, .policy p ∈ (w.site i).state.log → p.effect = .allow →
      (∀ a ∈ p.deps, (w.site i).state.markedValid a = true) → Unanswered (w.site i).state p →
      eval (w.site i).state p.target p.right = true) := by
  constructor
  · intro w run i p member deny deps unanswered
    rw [unanswered_winner .integrity w run i p member (by simp [Strategy.favors, deny]) deps unanswered, deny]
    rfl
  · intro w run i p member allow deps unanswered
    rw [unanswered_winner .accessibility w run i p member (by simp [Strategy.favors, allow]) deps unanswered, allow]
    rfl

theorem contest_runs_accessible : (play .accessibility contest).isSome = true := by decide +kernel

theorem contested_decision_holds :
    eval (contested.site "A").state "C" .write = false ∧
      eval (((play .accessibility contest).get contest_runs_accessible).site "A").state "C" .write = true :=
  ⟨unanswered_decision_holds.1 contested (played .integrity contest contest_runs) "A"
      ⟨⟨"A", 2⟩, "C", .write, .deny, [⟨"A", 1⟩], none, []⟩ (by decide +kernel) rfl (by decide +kernel) (by decide +kernel),
    unanswered_decision_holds.2 _ (played .accessibility contest contest_runs_accessible) "A"
      ⟨⟨"B", 1⟩, "C", .write, .allow, [], none, []⟩ (by decide +kernel) rfl (by decide +kernel) (by decide +kernel)⟩

-- A's deny rests on an allow that B's deny voids, so it is void as well, and
-- B's later allow stands although it never saw A's deny.
def cutOff : List Action :=
  [.policy "A" "C" .write .allow, .policy "A" "C" .write .deny, .policy "B" "C" .write .allow,
    .policy "B" "C" .write .deny, .policy "B" "C" .write .allow,
    .sync "B" "A" [⟨"A", 1⟩, ⟨"A", 2⟩, ⟨"B", 1⟩, ⟨"B", 2⟩, ⟨"B", 3⟩], .rebuild "B"]

theorem cut_off_runs : (play .integrity cutOff).isSome = true := by decide +kernel

theorem unanswered_deny_void : ¬ ∀ w, CausalRun .integrity w → ∀ i p, .policy p ∈ (w.site i).state.log →
    p.effect = .deny → Unanswered (w.site i).state p → eval (w.site i).state p.target p.right = false := by
  intro holds
  have denied := holds _ (played .integrity cutOff cut_off_runs) "B" ⟨⟨"A", 2⟩, "C", .write, .deny, [⟨"A", 1⟩], none, []⟩
    (by decide +kernel) rfl (by decide +kernel)
  exact absurd denied (by decide +kernel)

end Accure
