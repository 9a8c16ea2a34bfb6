import Accure.Causal
import Accure.Dots

set_option autoImplicit false

namespace Accure

theorem rebuild_up_to_date (rank : Dot → Nat) (s : State) (doc : Doc) (replayable : Replayable rank s doc)
    (known : ∀ o ∈ doc.ops, o ∈ s.log) : rebuildFromAutomerge s doc = (s, []) := by
  have policies : newPolicies s doc = [] := by
    apply List.eq_nil_iff_forall_not_mem.mpr
    intro p row
    obtain ⟨member, new⟩ := (mem_new_policies rank s doc replayable p).mp row
    exact new (known _ ((policy_mem_ops doc p).mpr member))
  have documents : newDocuments s doc = [] := by
    apply List.eq_nil_iff_forall_not_mem.mpr
    intro d row
    obtain ⟨member, new⟩ := (mem_new_documents rank s doc replayable d).mp row
    exact new (known _ ((document_mem_ops doc d).mpr member))
  have same : integrated s doc = s := by rw [integrated, policies, documents, List.foldl_nil, List.foldl_nil]
  rw [rebuild_eq, same, policies, documents, sound_rebuild rank s replayable.sound]
  rfl

section Rebuilt

variable (rank : Dot → Nat) (w : World) (grounded : Grounded rank w) (i : SiteId)

def World.rebuilt (w : World) (i : SiteId) : World :=
  w.put i ⟨(rebuildFromAutomerge (w.site i).state (w.site i).doc).1, (w.site i).doc⟩

@[simp] theorem rebuilt_site : (w.rebuilt i).site i =
    ⟨(rebuildFromAutomerge (w.site i).state (w.site i).doc).1, (w.site i).doc⟩ := Function.update_self _ _ _

include grounded

theorem rebuilt_known (o : Operation) (member : o ∈ (w.site i).doc.ops) :
    o ∈ (rebuildFromAutomerge (w.site i).state (w.site i).doc).1.log :=
  (rebuild_perm _ _ (grounded.once i) (grounded.logged i) (grounded.distinct i)).mem_iff.mpr member

theorem rebuilt_again : rebuildFromAutomerge (rebuildFromAutomerge (w.site i).state (w.site i).doc).1 (w.site i).doc =
    ((rebuildFromAutomerge (w.site i).state (w.site i).doc).1, []) := by
  have ready := replayable rank _ (grounded_rebuild rank w grounded i) i
  change Replayable rank ((w.rebuilt i).site i).state ((w.rebuilt i).site i).doc at ready
  rw [rebuilt_site] at ready
  exact rebuild_up_to_date rank _ _ ready (rebuilt_known rank w grounded i)

-- A local update enters the log and the lists alike.
theorem generated_again (o : Operation) (s : State) (step : Step CausalSync w (w.generate i o ⟨s, (w.site i).doc.append o⟩))
    (log : s.log = (w.site i).state.log ++ [o]) (known : ∀ x ∈ (w.site i).doc.ops, x ∈ (w.site i).state.log) :
    rebuildFromAutomerge s ((w.site i).doc.append o) = (s, []) := by
  obtain ⟨other, _, after⟩ := grounded_step rank w grounded _ step
  have ready := replayable other _ after i
  rw [generate_here] at ready
  apply rebuild_up_to_date other _ _ ready
  intro x member
  rw [log, List.mem_append, List.mem_singleton]
  exact ((mem_doc_append _ o x).mp member).imp_left (known x)

end Rebuilt

theorem rebuild_idempotent (strategy : Strategy) (w : World) (run : CausalRun strategy w) (i : SiteId) (s : State)
    (traces : List Trace) (rebuilt : rebuildFromAutomerge (w.site i).state (w.site i).doc = (s, traces)) :
    rebuildFromAutomerge s (w.site i).doc = (s, []) ∧
    (∀ target right effect p next doc, updatePolicy s (w.site i).doc target right effect = .ok (p, next, doc) →
      rebuildFromAutomerge next doc = (next, [])) ∧
    ∀ edit d next doc, updateDocument s (w.site i).doc edit = .ok (d, next, doc) →
      rebuildFromAutomerge next doc = (next, []) := by
  obtain ⟨rank, causal⟩ := causal_run strategy w run
  have grounded := causal.toGrounded
  have after : Grounded rank (w.rebuilt i) := grounded_rebuild rank w grounded i
  have known := rebuilt_known rank w grounded i
  have again := rebuilt_again rank w grounded i
  have site := rebuilt_site w i
  rw [rebuilt] at known again site
  have stateEq : ((w.rebuilt i).site i).state = s := by rw [site]
  have docEq : ((w.rebuilt i).site i).doc = (w.site i).doc := by rw [site]
  refine ⟨again, ?_, ?_⟩
  · intro target right effect p next doc ok
    rw [← stateEq, ← docEq] at ok
    have step : Step CausalSync (w.rebuilt i) _ := .updatePolicy _ i target right effect p next doc ok
    obtain ⟨_, _, rfl, rfl⟩ := (update_policy_ok _ _ _ _ _ _ _ _).mp ok
    apply generated_again rank _ after i (.policy p) _ step
    · rw [effect_policy_log, allocated_log]
    · rw [stateEq, docEq]
      exact known
  · intro edit d next doc ok
    rw [← stateEq, ← docEq] at ok
    have step : Step CausalSync (w.rebuilt i) _ := .updateDocument _ i edit d next doc ok
    obtain ⟨_, _, rfl, rfl⟩ := (update_document_ok _ _ _ _ _ _).mp ok
    apply generated_again rank _ after i (.document d) _ step
    · rw [effect_document_log, allocated_log]
    · rw [stateEq, docEq]
      exact known

theorem exchanged_idempotent :
    let doc := (exchanged.site "B").doc
    let s := (rebuildFromAutomerge (exchanged.site "B").state doc).1
    let p := freshPolicy s "A" .write .allow
    rebuildFromAutomerge s doc = (s, []) ∧
      rebuildFromAutomerge (effectPolicy s.allocated p) (doc.append (.policy p)) = (effectPolicy s.allocated p, []) := by
  have run := played .integrity exchange exchange_runs
  exact ⟨(rebuild_idempotent .integrity exchanged run "B" _ _ rfl).1,
    (rebuild_idempotent .integrity exchanged run "B" _ _ rfl).2.1 "A" .write .allow _ _ _
      (update_policy_accepted _ _ _ _ _ (by decide +kernel))⟩

end Accure
