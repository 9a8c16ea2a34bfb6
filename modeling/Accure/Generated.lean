import Accure.Decisions

set_option autoImplicit false

namespace Accure

-- What an op generated now for the tuple rests on: the valid ops of the top
-- level and all below them.
def RestsOn (s : State) (t : AccessTuple) (d : Dot) : Prop :=
  ∃ a ∈ currentTopLevelDeps s t, d = a ∨ d ∈ (s.dagAt t).ancestors a

instance (s : State) (t : AccessTuple) (d : Dot) : Decidable (RestsOn s t d) :=
  inferInstanceAs (Decidable (∃ a ∈ currentTopLevelDeps s t, d = a ∨ d ∈ (s.dagAt t).ancestors a))

section Arrives

variable (rank : Dot → Nat) (s : State) (p : PolicyOp) (sound : Sound rank s) (arrives : PolicyArrives rank s p)

include sound arrives

theorem arrival_before (d : Dot) : ((effectPolicy s p).dagAt p.tuple).Before d p.dot ↔
    ∃ a ∈ p.deps, d = a ∨ (s.dagAt p.tuple).Before d a := by
  have extension := admit_extends rank s p sound.wired arrives.fits
  have ranked := graph_ranked rank s sound.wired p.tuple
  have admitted := admit_wired rank s p sound.wired arrives.fits
  have edges : ∀ a, a ∈ ((admitPolicy s p).dagAt p.tuple).parents p.dot ↔ a ∈ p.deps :=
    parents_of_op rank _ admitted p (by simp)
  have inner : ∀ a ∈ p.deps, ∀ d, ((admitPolicy s p).dagAt p.tuple).Before d a ↔ (s.dagAt p.tuple).Before d a := by
    intro a dep d
    obtain ⟨q, member, _, dot⟩ := arrives.deps a dep
    have old : a ≠ p.dot := dot ▸ arrives.fresh _ member
    exact Conflict.before_old _ _ p.dot extension rank ranked d a old
  rw [effect_policy_dag]
  constructor
  · intro before
    obtain ⟨a, path, edge⟩ := Relation.TransGen.tail'_iff.mp before
    have dep := (edges a).mp edge
    refine ⟨a, dep, ?_⟩
    rcases Relation.reflTransGen_iff_eq_or_transGen.mp path with same | further
    · exact Or.inl same.symm
    · exact Or.inr ((inner a dep d).mp further)
  · rintro ⟨a, dep, same | before⟩
    · exact Relation.TransGen.single (same ▸ (edges a).mpr dep)
    · exact ((inner a dep d).mpr before).tail ((edges a).mpr dep)

theorem arrival_sink (d : Dot) : ¬ ((effectPolicy s p).dagAt p.tuple).Before p.dot d := by
  rw [effect_policy_dag]
  exact Conflict.nothing_after _ _ p.dot (admit_extends rank s p sound.wired arrives.fits) rank
    (graph_ranked rank s sound.wired p.tuple) d

theorem arrival_marked (q : PolicyOp) (member : .policy q ∈ s.log ∨ q = p) :
    (effectPolicy s p).markedValid q.dot = afterArrival s p q.dot := by
  have inside : .policy q ∈ (admitPolicy s p).log := by
    rw [admit_log, List.mem_append, List.mem_singleton]
    exact member.imp_right (congrArg Operation.policy)
  rw [State.markedValid, effect_policy_value rank s p sound.steady arrives.fits (admit_linked s p sound.linked) q inside, Option.getD_some]

theorem arrival_node (q : PolicyOp) (member : .policy q ∈ s.log ∨ q = p) (tuple : q.tuple = p.tuple) :
    q.dot ∈ ((admitPolicy s p).dagAt p.tuple).nodes := by
  have inside : .policy q ∈ (admitPolicy s p).log := by
    rw [admit_log, List.mem_append, List.mem_singleton]
    exact member.imp_right (congrArg Operation.policy)
  exact ((admit_wired rank s p sound.wired arrives.fits).nodes _ _).mpr ⟨q, inside, tuple, rfl⟩

theorem arrival_favored : ((admitPolicy s p).graph p.tuple).wins p.dot ↔ s.strategy.favors p.effect = true :=
  wins_iff rank _ (admit_wired rank s p sound.wired arrives.fits) p (by simp)

theorem arrival_accepted (deps : ∀ a ∈ p.deps, s.markedValid a = true) :
    ((admitPolicy s p).graph p.tuple).Accepted s.Marked p.dot ↔
      s.strategy.favors p.effect = true ∨ ∀ q, Valid s p.tuple q → s.strategy.favors q.effect = true →
        ((effectPolicy s p).dagAt p.tuple).Before q.dot p.dot := by
  have admitted := admit_wired rank s p sound.wired arrives.fits
  have favored := arrival_favored rank s p sound arrives
  have sink := arrival_sink rank s p sound arrives
  rw [effect_policy_dag] at sink ⊢
  constructor
  · rintro ⟨_, undefeated⟩
    by_cases wins : s.strategy.favors p.effect = true
    · exact Or.inl wins
    · refine Or.inr fun q valid qWins => ?_
      have different : q.dot ≠ p.dot := arrives.fresh _ valid.1
      have node := arrival_node rank s p sound arrives q (Or.inl valid.1) valid.2.1
      have qFavored : ((admitPolicy s p).graph p.tuple).wins q.dot := by
        rw [← valid.2.1]
        exact (wins_iff rank _ admitted q (by simp [valid.1])).mpr qWins
      have ordered := undefeated (fun has => wins (favored.mp has)) q.dot node qFavored valid.2.2
      exact (Conflict.comparable_of_not_concurrent _ p.dot q.dot different.symm ordered).resolve_left (sink q.dot)
  · intro either
    refine ⟨fun a edge => deps a ((parents_of_op rank _ admitted p (by simp) a).mp edge), ?_⟩
    intro loses y node yWins marked concurrent
    rcases either with wins | known
    · exact loses (favored.mpr wins)
    · obtain ⟨q, member, tuple, dot, qWins⟩ := yWins
      have different : q ≠ p := fun same => concurrent.1 (same ▸ dot)
      have old : .policy q ∈ s.log := by simpa [different] using member
      exact concurrent.2.2 (dot ▸ known q ⟨old, tuple, dot ▸ marked⟩ qWins)

theorem arrival_valid (deps : ∀ a ∈ p.deps, s.markedValid a = true) :
    (effectPolicy s p).markedValid p.dot = true ↔
      s.strategy.favors p.effect = true ∨ ∀ q, Valid s p.tuple q → s.strategy.favors q.effect = true →
        ((effectPolicy s p).dagAt p.tuple).Before q.dot p.dot := by
  have node := arrival_node rank s p sound arrives p (Or.inr rfl) rfl
  rw [arrival_marked rank s p sound arrives p (Or.inr rfl), after_arrival_here s p p.dot node, Conflict.arrived_new,
    arrival_accepted rank s p sound arrives deps]

theorem arrival_decides (valid : (effectPolicy s p).markedValid p.dot = true) :
    eval (effectPolicy s p) p.target p.right = decide (p.effect = .allow) := by
  have after := effect_policy_sound rank s p sound arrives
  apply unanswered_decides rank _ after p.tuple p ⟨by simp, rfl, valid⟩
  exact fun q _ _ => arrival_sink rank s p sound arrives q.dot

-- Only an accepted op of the winning effect voids anything.
theorem arrival_idle_keeps (idle : ((admitPolicy s p).graph p.tuple).Accepted s.Marked p.dot →
    s.strategy.favors p.effect = true → False) (q : PolicyOp) (member : .policy q ∈ s.log)
    (tuple : q.tuple = p.tuple) : (effectPolicy s p).markedValid q.dot = s.markedValid q.dot := by
  have node := arrival_node rank s p sound arrives q (Or.inl member) tuple
  have old : q.dot ≠ p.dot := arrives.fresh _ member
  rw [arrival_marked rank s p sound arrives q (Or.inl member), Bool.eq_iff_iff, after_arrival_here s p q.dot node]
  constructor
  · exact fun arrived => Conflict.arrived_old _ p.dot s.Marked q.dot old arrived
  · exact fun valid => Or.inr ⟨old, valid, fun accepted wins =>
      (idle accepted ((arrival_favored rank s p sound arrives).mp wins)).elim⟩

theorem arrival_loser_keeps (loses : s.strategy.favors p.effect = false) (q : PolicyOp) (member : .policy q ∈ s.log)
    (tuple : q.tuple = p.tuple) : (effectPolicy s p).markedValid q.dot = s.markedValid q.dot :=
  arrival_idle_keeps rank s p sound arrives (fun _ wins => by simp [loses] at wins) q member tuple

theorem arrival_winner_keeps (wins : s.strategy.favors p.effect = true)
    (accepted : ((admitPolicy s p).graph p.tuple).Accepted s.Marked p.dot) (q : PolicyOp) (member : .policy q ∈ s.log)
    (tuple : q.tuple = p.tuple) : (effectPolicy s p).markedValid q.dot = true ↔
      s.markedValid q.dot = true ∧ ∀ r, .policy r ∈ s.log → r.tuple = p.tuple → s.strategy.favors r.effect = false →
        r.dot = q.dot ∨ (s.dagAt p.tuple).Before r.dot q.dot → ((effectPolicy s p).dagAt p.tuple).Before r.dot p.dot := by
  have admitted := admit_wired rank s p sound.wired arrives.fits
  have extension := admit_extends rank s p sound.wired arrives.fits
  have ranked := graph_ranked rank s sound.wired p.tuple
  have node := arrival_node rank s p sound arrives q (Or.inl member) tuple
  have old : q.dot ≠ p.dot := arrives.fresh _ member
  have below : ∀ d, ((admitPolicy s p).graph p.tuple).Before d q.dot ↔ (s.dagAt p.tuple).Before d q.dot :=
    fun d => Conflict.before_old _ _ p.dot extension rank ranked d q.dot old
  rw [arrival_marked rank s p sound arrives q (Or.inl member), after_arrival_here s p q.dot node, effect_policy_dag]
  constructor
  · rintro (⟨same, _⟩ | ⟨_, valid, kept⟩)
    · exact absurd same old
    · refine ⟨valid, fun r rIn rTuple rLoses under => ?_⟩
      refine kept accepted ((arrival_favored rank s p sound arrives).mpr wins) r.dot (under.imp_right (below r.dot).mpr) ?_
      rintro ⟨x, xIn, _, dot, favored⟩
      have same := same_dot_same_op _ admitted.nodup _ (.policy r) xIn (by simp [rIn]) dot
      cases same
      rw [admit_strategy, rLoses] at favored
      exact absurd favored (by simp)
  · rintro ⟨valid, kept⟩
    refine Or.inr ⟨old, valid, fun _ _ d under loses => ?_⟩
    have inside : d ∈ (s.dagAt p.tuple).nodes := by
      rcases under with same | before
      · exact same ▸ (sound.nodes _ _).mpr ⟨q, member, tuple, rfl⟩
      · exact (dag_before_ends _ _ _ ((below d).mp before)).1
    obtain ⟨r, rIn, rTuple, rfl⟩ := (sound.nodes _ _).mp inside
    apply kept r rIn rTuple _ (under.imp_right (below r.dot).mp)
    have fails : ¬ s.strategy.favors r.effect = true := fun favored =>
      loses ⟨r, by simp [rIn], rTuple, rfl, favored⟩
    simpa using fails

end Arrives

section Fresh

variable (rank : Dot → Nat) (s : State) (target : SiteId) (right : Right) (effect : Effect)
variable (sound : Sound rank s) (arrives : PolicyArrives rank s.allocated (freshPolicy s target right effect))

include sound

theorem fresh_deps_valid (a : Dot) (dep : a ∈ currentTopLevelDeps s ⟨target, right⟩) : s.markedValid a = true :=
  ((mem_top_deps rank s sound.toConsistent ⟨target, right⟩ a).mp dep).2.2

include arrives

theorem fresh_before (d : Dot) :
    ((effectPolicy s.allocated (freshPolicy s target right effect)).dagAt ⟨target, right⟩).Before d
      (freshPolicy s target right effect).dot ↔ RestsOn s ⟨target, right⟩ d := by
  have before := arrival_before rank _ _ (sound_allocated rank s sound) arrives d
  rw [RestsOn]
  simp only [mem_ancestors]
  exact before

theorem fresh_valid_iff :
    (effectPolicy s.allocated (freshPolicy s target right effect)).markedValid (freshPolicy s target right effect).dot = true ↔
      s.strategy.favors effect = true ∨
        ∀ q, Valid s ⟨target, right⟩ q → s.strategy.favors q.effect = true → RestsOn s ⟨target, right⟩ q.dot := by
  have valid := arrival_valid rank _ _ (sound_allocated rank s sound) arrives
    (fresh_deps_valid rank s target right sound)
  have before := fresh_before rank s target right effect sound arrives
  refine valid.trans (or_congr Iff.rfl (forall_congr' fun q => imp_congr Iff.rfl (imp_congr Iff.rfl ?_)))
  exact before q.dot

end Fresh

theorem decision_takes_effect_iff (strategy : Strategy) (w : World) (run : CausalRun strategy w) (i target : SiteId)
    (right : Right) (effect : Effect) (p : PolicyOp) (s : State) (doc : Doc)
    (ok : updatePolicy (w.site i).state (w.site i).doc target right effect = .ok (p, s, doc)) :
    (s.valid p.dot = some true ∧ eval s target right = decide (effect = .allow)) ↔
      (strategy.favors effect = true ∨ ∀ q ∈ (w.site i).state.policies, q.tuple = ⟨target, right⟩ →
        (w.site i).state.markedValid q.dot = true → strategy.favors q.effect = true →
          RestsOn (w.site i).state ⟨target, right⟩ q.dot) := by
  obtain ⟨rank, causal⟩ := causal_run strategy w run
  obtain ⟨other, rfl, rfl, sound, arrives, _⟩ := policy_generated rank strategy w causal i target right effect p s doc ok
  have after := effect_policy_sound other _ _ (sound_allocated other _ sound) arrives
  have validIff := fresh_valid_iff other _ target right effect sound arrives
  have settled := settled_value other _ after.steady (freshPolicy (w.site i).state target right effect) (by simp)
  rw [settled, Option.some.injEq, validIff, causal.strategies i]
  constructor
  · rintro ⟨either, _⟩
    exact either.imp_right fun known q qIn tuple marked favored =>
      known q ⟨(mem_state_policies _ q).mp qIn, tuple, marked⟩ favored
  · intro either
    have known := either.imp_right fun known (q : PolicyOp) (valid : Valid (w.site i).state ⟨target, right⟩ q) favored =>
      known q ((mem_state_policies _ q).mpr valid.1) valid.2.1 valid.2.2 favored
    refine ⟨known, arrival_decides other _ _ (sound_allocated other _ sound) arrives (validIff.mpr ?_)⟩
    rw [causal.strategies i]
    exact known

def beside : List Action :=
  [.policy "A" "C" .write .deny, .policy "A" "C" .write .deny, .policy "B" "C" .write .deny,
    .sync "A" "B" [⟨"A", 1⟩, ⟨"A", 2⟩, ⟨"B", 1⟩], .rebuild "A"]

theorem beside_runs : (play .integrity beside).isSome = true := by decide +kernel

def besideWorld : World := (play .integrity beside).get beside_runs

theorem beside_deny_takes_effect :
    eval (effectPolicy (besideWorld.site "A").state.allocated (freshPolicy (besideWorld.site "A").state "C" .write .deny))
      "C" .write = false :=
  ((decision_takes_effect_iff .integrity besideWorld (played .integrity beside beside_runs) "A" "C" .write .deny _ _ _
    (update_policy_accepted _ _ "C" .write .deny (by decide +kernel))).mpr (Or.inl rfl)).2

-- The allow names only the deeper deny, and the one beside it defeats it.
theorem allow_defeated_at_author : ¬ ∀ strategy w, CausalRun strategy w → ∀ i target right effect p s doc,
    updatePolicy (w.site i).state (w.site i).doc target right effect = .ok (p, s, doc) →
      s.valid p.dot = some true ∧ eval s target right = decide (effect = .allow) := by
  intro holds
  have taken := holds .integrity besideWorld (played .integrity beside beside_runs) "A" "C" .write .allow _ _ _
    (update_policy_accepted _ _ "C" .write .allow (by decide +kernel))
  exact absurd taken.1 (by decide +kernel)

end Accure
