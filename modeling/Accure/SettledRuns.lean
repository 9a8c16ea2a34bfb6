import Accure.Causal
import Accure.Dots

set_option autoImplicit false

namespace Accure

-- The states on which the next step calls rebuild_validity: once for a policy
-- op generated here, once for each policy op received, once at the end of
-- rebuild_from_automerge.
inductive Calls (w : World) : State → Prop where
  | generated (i target : SiteId) (right : Right) (effect : Effect) (p : PolicyOp) (s : State) (doc : Doc)
      (ok : updatePolicy (w.site i).state (w.site i).doc target right effect = .ok (p, s, doc)) :
      Calls w (admitPolicy (w.site i).state.allocated p)
  | received (i : SiteId) (before : List PolicyOp) (p : PolicyOp) (after : List PolicyOp)
      (split : newPolicies (w.site i).state (w.site i).doc = before ++ p :: after) :
      Calls w (admitPolicy (before.foldl effectPolicy (w.site i).state) p)
  | final (i : SiteId) : Calls w (integrated (w.site i).state (w.site i).doc)

theorem calls_break (rank : Dot → Nat) (strategy : Strategy) (w : World) (causal : Causal rank strategy w) (s : State)
    (calls : Calls w s) : (rebuildRounds (maxIters s) s).2.2 = true := by
  cases calls with
  | generated i target right effect p s doc ok =>
      obtain ⟨other, _, _, sound, arrives, _⟩ := policy_generated rank strategy w causal i target right effect p s doc ok
      have ready := sound_allocated other _ sound
      exact (effect_policy_rounds other _ _ ready.steady arrives.fits (admit_linked _ _ ready.linked)).2.2
  | received i before p after split =>
      obtain ⟨sound, arrives⟩ := (replay_policies rank _ _ (replayable rank w causal.toGrounded i)).1 before p after split
      exact (effect_policy_rounds rank _ _ sound.steady arrives.fits (admit_linked _ _ sound.linked)).2.2
  | final i =>
      have sound := integrated_sound rank _ _ (replayable rank w causal.toGrounded i)
      have rounds : maxIters (integrated (w.site i).state (w.site i).doc) =
        (integrated (w.site i).state (w.site i).doc).log.length * 4 + 7 + 1 := rfl
      rw [rounds, settled_rebuild _ sound.settled]

structure RegisterSettled (w : World) : Prop where
  entries : ∀ i d, (w.site i).state.valid d ≠ none ↔ ∃ o ∈ (w.site i).state.log, o.dot = d
  values : ∀ i, ∀ o ∈ (w.site i).state.log, (w.site i).state.valid o.dot = some (isValid (w.site i).state o)
  breaks : ∀ s, Calls w s → (rebuildRounds (maxIters s) s).2.2 = true

theorem register_settled (strategy : Strategy) (w : World) (run : CausalRun strategy w) : RegisterSettled w := by
  obtain ⟨rank, causal⟩ := causal_run strategy w run
  refine ⟨?_, fun i => (causal.sound i).settled, calls_break rank strategy w causal⟩
  intro i d
  constructor
  · exact (causal.sound i).domain d
  · rintro ⟨o, member, rfl⟩
    rw [(causal.sound i).settled o member]
    exact Option.some_ne_none _

theorem exchanged_settled : RegisterSettled exchanged :=
  register_settled .integrity exchanged (played .integrity exchange exchange_runs)

end Accure
