import Accure.Alike
import Accure.Decisions

set_option autoImplicit false

namespace Accure

theorem undisputed_marked (rank : Dot → Nat) (s u : State) (sound : Sound rank s) (uSound : Sound rank u)
    (strategy : u.strategy = s.strategy) (same : ∀ o, o ∈ u.log ↔ o ∈ s.log) (undisputed : ∀ t, (s.graph t).Undisputed)
    (p : PolicyOp) (member : .policy p ∈ s.log) : u.markedValid p.dot = s.markedValid p.dot := by
  have node := (sound.nodes p.tuple p.dot).mpr ⟨p, member, rfl, rfl⟩
  have settled := graph_settled rank u uSound.steady p.tuple
  rw [same_graph rank s u sound.resolved uSound.resolved strategy same p.tuple] at settled
  exact Bool.eq_iff_iff.mpr (Conflict.settled_unique (s.graph p.tuple) rank (graph_ranked rank s sound.wired p.tuple)
    (graph_finite s p.tuple) (undisputed p.tuple) u.Marked s.Marked settled (graph_settled rank s sound.steady p.tuple)
    (rank p.dot + 1) p.dot node (Nat.lt_succ_self _))

-- What every site has to agree on.
def Agree (s u : State) : Prop :=
  u.valid = s.valid ∧ (∀ site right, eval u site right = eval s site right) ∧ currentText u = currentText s

def replayed (me : SiteId) (strategy : Strategy) (doc : Doc) : State :=
  (rebuildFromAutomerge (newStateFromBytes me strategy doc).1 doc).1

theorem undisputed_logs_converge (strategy : Strategy) (w : World) (run : CausalRun strategy w) (i : SiteId)
    (undisputed : ∀ t, ((w.site i).state.graph t).Undisputed) :
    (∀ j, (∀ o, o ∈ (w.site j).state.log ↔ o ∈ (w.site i).state.log) → Agree (w.site i).state (w.site j).state) ∧
      ∀ me, (∀ o, o ∈ (replayed me strategy (w.site i).doc).log ↔ o ∈ (w.site i).state.log) →
        Agree (w.site i).state (replayed me strategy (w.site i).doc) := by
  obtain ⟨rank, causal⟩ := causal_run strategy w run
  have sound := causal.sound i
  have agree : ∀ u, Sound rank u → u.strategy = (w.site i).state.strategy →
      (∀ o, o ∈ u.log ↔ o ∈ (w.site i).state.log) → Agree (w.site i).state u := by
    intro u uSound strategyEq same
    have marks := undisputed_marked rank _ u sound uSound strategyEq same undisputed
    exact ⟨same_valid rank _ u sound.resolved uSound.resolved strategyEq same marks,
      same_eval rank _ u sound.resolved uSound.resolved strategyEq same marks,
      same_text rank _ u sound.resolved uSound.resolved strategyEq same marks⟩
  constructor
  · intro j same
    exact agree _ (causal.sound j) ((causal.strategies j).trans (causal.strategies i).symm) same
  · intro me same
    have fresh := replayable_doc rank w causal.toGrounded (w.site i).doc (causal.recorded i) (causal.once i)
      (causal.closed i) (causal.ordered i) _ (initial_sound rank me strategy)
      (fun o member => absurd member List.not_mem_nil)
    apply agree _ (rebuild_sound rank _ _ fresh) _ same
    obtain ⟨v, state⟩ := rebuild_state (newStateFromBytes me strategy (w.site i).doc).1 (w.site i).doc
    exact (congrArg State.strategy state).trans ((integrated_strategy _ _).trans (causal.strategies i).symm)

def settlement : List Action :=
  contest ++ [.sync "B" "A" [⟨"A", 1⟩, ⟨"A", 2⟩, ⟨"B", 1⟩], .rebuild "B"]

theorem settlement_runs : (play .integrity settlement).isSome = true := by decide +kernel

def settledWorld : World := (play .integrity settlement).get settlement_runs

theorem settlement_converges : Agree (settledWorld.site "A").state (settledWorld.site "B").state := by
  have run := played .integrity settlement settlement_runs
  have one : ∀ p ∈ (settledWorld.site "A").state.policies, p.effect = .deny → p.dot = ⟨"A", 2⟩ := by decide +kernel
  have winner : ∀ t d, ((settledWorld.site "A").state.graph t).wins d → d = ⟨"A", 2⟩ := by
    rintro t d ⟨p, member, _, rfl, favored⟩
    have deny : p.effect = .deny := by
      cases effect : p.effect with
      | allow => rw [effect] at favored; exact absurd favored (by decide +kernel)
      | deny => rfl
    exact one p ((mem_state_policies _ p).mpr member) deny
  refine (undisputed_logs_converge .integrity settledWorld run "A" ?_).1 "B" ?_
  · intro t a b forth back
    rw [winner t a forth.2.1, winner t b back.2.1] at forth
    exact absurd forth (Conflict.not_defeats_self _ _)
  · have inside : (∀ o ∈ (settledWorld.site "B").state.log, o ∈ (settledWorld.site "A").state.log) ∧
        ∀ o ∈ (settledWorld.site "A").state.log, o ∈ (settledWorld.site "B").state.log := by decide +kernel
    exact fun o => ⟨inside.1 o, inside.2 o⟩

-- Each site's deny rests on an allow that the other's deny voids, so each
-- keeps the deny it integrated first.
def rivalry : List Action :=
  cutOff ++ [.sync "A" "B" [⟨"A", 1⟩, ⟨"A", 2⟩, ⟨"B", 1⟩, ⟨"B", 2⟩, ⟨"B", 3⟩], .rebuild "A"]

theorem rivalry_runs : (play .integrity rivalry).isSome = true := by decide +kernel

theorem rivals_diverge : ¬ ∀ strategy w, CausalRun strategy w → ∀ i j,
    (∀ o, o ∈ (w.site j).state.log ↔ o ∈ (w.site i).state.log) → Agree (w.site i).state (w.site j).state := by
  intro holds
  have agree := holds .integrity _ (played .integrity rivalry rivalry_runs) "A" "B" (by
    have inside : (∀ o ∈ (((play .integrity rivalry).get rivalry_runs).site "B").state.log,
          o ∈ (((play .integrity rivalry).get rivalry_runs).site "A").state.log) ∧
        ∀ o ∈ (((play .integrity rivalry).get rivalry_runs).site "A").state.log,
          o ∈ (((play .integrity rivalry).get rivalry_runs).site "B").state.log := by decide +kernel
    exact fun o => ⟨inside.1 o, inside.2 o⟩)
  exact absurd (agree.2.1 "C" .write) (by decide +kernel)

end Accure
