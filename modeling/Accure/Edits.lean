import Accure.Coverage

set_option autoImplicit false

namespace Accure

section Denied

variable (rank : Dot → Nat) (s : State) (sound : Sound rank s) (target : SiteId)
variable (denied : eval s target .write = false)

include sound denied

theorem denied_top : ∃ q, Valid s ⟨target, .write⟩ q ∧ (∀ r, Valid s ⟨target, .write⟩ r → rank r.dot ≤ rank q.dot) ∧
    q.effect = .deny := by
  by_cases present : ∃ p, Valid s ⟨target, .write⟩ p
  · obtain ⟨p, valid⟩ := present
    obtain ⟨q, qValid, highest, value⟩ := eval_chosen rank s sound ⟨target, .write⟩ p valid.1 valid.2.1
    refine ⟨q, qValid, highest, ?_⟩
    rw [value] at denied
    cases effect : q.effect with
    | allow => simp [effect] at denied
    | deny => rfl
  · have allowed := undecided rank s sound.toConsistent ⟨target, .write⟩ (fun _ => true)
      (fun q candidate => present ⟨q, (candidate_iff s _ q).mp candidate⟩)
    rw [eval_eq, allowed] at denied
    exact absurd denied (by simp)

-- The deny that eval ends on covers every document op, so it decides these too.
theorem denied_document (d : DocOp) (emitter : d.dot.site = target) : isValidDocument s d = false := by
  subst emitter
  obtain ⟨q, valid, highest, deny⟩ := denied_top rank s sound d.dot.site denied
  have decided := decided_by rank s sound.toConsistent d.tuple (fun p => covers p d.dot) q
    ⟨valid.1, valid.2.1, valid.2.2, deny_covers q d.dot deny⟩ (by
      intro r candidate deeper
      exact top_agrees rank s sound d.tuple q r valid ⟨candidate.logged, candidate.tuple, candidate.valid⟩ highest deeper)
  rw [is_valid_document_eq, decided, deny]
  rfl

end Denied

def emittedBy (site : SiteId) (o : Operation) : Bool := o.asDocument.any (fun d => d.dot.site = site)

theorem denied_site_hidden (strategy : Strategy) (w : World) (run : CausalRun strategy w) (i target : SiteId)
    (denied : eval (w.site i).state target .write = false) :
    (∀ d, .document d ∈ (w.site i).state.log → d.dot.site = target → (w.site i).state.valid d.dot = some false) ∧
      currentText (w.site i).state =
        renderText ((w.site i).state.log.filter (fun o => !emittedBy target o)) (w.site i).state.valid := by
  obtain ⟨rank, causal⟩ := causal_run strategy w run
  have sound := causal.sound i
  generalize (w.site i).state = s at denied sound ⊢
  have hidden : ∀ d, .document d ∈ s.log → d.dot.site = target → s.valid d.dot = some false := by
    intro d member emitter
    have settled := sound.settled _ member
    rw [dot_document, isValid, denied_document rank s sound target denied d emitter] at settled
    exact settled
  refine ⟨hidden, ?_⟩
  apply render_text_congr _ _ _ _ (doc_dots_nodup _ sound.nodup)
    (doc_dots_nodup _ (sound.nodup.sublist (List.filter_sublist.map _)))
  intro d
  rw [List.mem_filter]
  constructor
  · rintro ⟨member, shown⟩
    refine ⟨⟨member, ?_⟩, shown⟩
    have other : d.dot.site ≠ target := fun emitter => by simp [hidden d member emitter] at shown
    simp [emittedBy, Operation.asDocument, other]
  · rintro ⟨⟨member, _⟩, shown⟩
    exact ⟨member, shown⟩

def shutOut : List Action :=
  [.document "B" (.insert 0 'b'), .document "A" (.insert 0 'a'), .policy "A" "B" .write .deny,
    .document "B" (.insert 0 'c'), .sync "A" "B" [⟨"A", 1⟩, ⟨"A", 2⟩, ⟨"B", 1⟩, ⟨"B", 2⟩], .rebuild "A"]

theorem shut_out_runs : (play .integrity shutOut).isSome = true := by decide +kernel

def shutOutWorld : World := (play .integrity shutOut).get shut_out_runs

theorem shut_out_hidden : currentText (shutOutWorld.site "A").state =
    renderText ((shutOutWorld.site "A").state.log.filter (fun o => !emittedBy "B" o)) (shutOutWorld.site "A").state.valid :=
  (denied_site_hidden .integrity shutOutWorld (played .integrity shutOut shut_out_runs) "A" "B" (by decide +kernel)).2

def written (s : State) (edit : TextEdit) : State := effectDocument s.allocated (freshDocument s edit)

section Accepted

variable (rank : Dot → Nat) (strategy : Strategy) (w : World) (causal : Causal rank strategy w) (informed : Informed w)
variable (i : SiteId) (edit : TextEdit)

include causal

theorem fresh_document_dot : (freshDocument (w.site i).state edit).dot = ⟨i, (w.site i).state.counter + 1⟩ := by
  rw [freshDocument, causal.me i]

theorem fresh_document_apart (o : Operation) (member : o ∈ (w.site i).state.log) :
    o.dot ≠ (freshDocument (w.site i).state edit).dot := by
  rw [fresh_document_dot rank strategy w causal i edit]
  exact fresh_dot w causal.toFaithful i o (log_recorded w causal.toFaithful i o member)

theorem written_keeps (o : Operation) (member : o ∈ (w.site i).state.log) :
    (written (w.site i).state edit).valid o.dot = (w.site i).state.valid o.dot :=
  Function.update_of_ne (fresh_document_apart rank strategy w causal i edit o member) _ _

theorem written_sound : Sound rank (written (w.site i).state edit) :=
  effect_document_sound rank _ _ (sound_allocated rank _ (causal.sound i))
    (fresh_document_arrives rank (w.site i).state edit (causal.sound i) (fresh_document_apart rank strategy w causal i edit))

theorem written_deps : depsAccepted (written (w.site i).state edit) (freshDocument (w.site i).state edit) = true := by
  rw [depsAccepted, List.all_eq_true]
  intro a dep
  obtain ⟨⟨q, member, _, rfl⟩, _, marked⟩ :=
    (mem_top_deps rank _ (causal.sound i).toConsistent ⟨(w.site i).state.me, .write⟩ a).mp dep
  have kept := written_keeps rank strategy w causal i edit _ member
  have value := settled_value rank _ (causal.sound i).steady q member
  rw [dot_policy] at kept
  rw [kept, value]
  exact marked

include informed

theorem written_candidate_iff (q : PolicyOp) : Candidate (written (w.site i).state edit) ⟨i, .write⟩
      (fun p => covers p (freshDocument (w.site i).state edit).dot) q ↔
    Valid (w.site i).state ⟨i, .write⟩ q ∧ q.effect = .deny := by
  have inLog : .policy q ∈ (written (w.site i).state edit).log ↔ .policy q ∈ (w.site i).state.log := by simp [written]
  have kept : .policy q ∈ (w.site i).state.log →
      ((written (w.site i).state edit).Marked q.dot ↔ (w.site i).state.markedValid q.dot = true) := by
    intro member
    have same := written_keeps rank strategy w causal i edit _ member
    rw [dot_policy] at same
    rw [State.Marked, State.markedValid, State.markedValid, same]
  constructor
  · rintro ⟨logged, tuple, valid, considered⟩
    have member := inLog.mp logged
    have target : q.target = i := congrArg AccessTuple.site tuple
    rw [fresh_document_dot rank strategy w causal i edit,
      covers_fresh w causal.toFaithful informed i q (log_recorded w causal.toFaithful i _ member) target,
      decide_eq_true_eq] at considered
    exact ⟨⟨member, tuple, (kept member).mp valid⟩, considered⟩
  · rintro ⟨⟨member, tuple, valid⟩, deny⟩
    exact ⟨inLog.mpr member, tuple, (kept member).mpr valid, deny_covers q _ deny⟩

theorem fresh_document_valid_iff :
    isValidDocument (written (w.site i).state edit) (freshDocument (w.site i).state edit) = true ↔
      ∀ q, Valid (w.site i).state ⟨i, .write⟩ q → q.effect = .allow := by
  have after := written_sound rank strategy w causal i edit
  have candidate := written_candidate_iff rank strategy w causal informed i edit
  have tuple : (freshDocument (w.site i).state edit).tuple = ⟨i, .write⟩ := by
    rw [DocOp.tuple, fresh_document_dot rank strategy w causal i edit]
  rw [is_valid_document_eq, written_deps rank strategy w causal i edit, Bool.and_true, tuple]
  constructor
  · intro allowed q valid
    by_contra opposed
    have deny : q.effect = .deny := by
      cases effect : q.effect with
      | allow => exact absurd effect opposed
      | deny => rfl
    have decided := decided_by rank _ after.toConsistent ⟨i, .write⟩ _ q ((candidate q).mpr ⟨valid, deny⟩) (by
      intro r rCandidate _
      rw [((candidate r).mp rCandidate).2, deny])
    rw [decided, deny] at allowed
    exact absurd allowed (by decide)
  · intro allow
    apply undecided rank _ after.toConsistent
    intro q qCandidate
    obtain ⟨valid, deny⟩ := (candidate q).mp qCandidate
    rw [allow q valid] at deny
    exact absurd deny (by decide)

end Accepted

theorem accepted_write_valid_iff (strategy : Strategy) (w : World) (run : CausalRun strategy w) (i : SiteId)
    (edit : TextEdit) (d : DocOp) (s : State) (doc : Doc)
    (ok : updateDocument (w.site i).state (w.site i).doc edit = .ok (d, s, doc)) :
    s.valid d.dot = some true ↔ ∀ q ∈ (w.site i).state.policies, q.tuple = ⟨i, .write⟩ →
      (w.site i).state.markedValid q.dot = true → q.effect ≠ .deny := by
  obtain ⟨rank, causal⟩ := causal_run strategy w run
  have informed := informed_run strategy w run
  obtain ⟨_, rfl, rfl, _⟩ := (update_document_ok _ _ _ _ _ _).mp ok
  have settled := (written_sound rank strategy w causal i edit).settled
    (.document (freshDocument (w.site i).state edit)) (by simp [written])
  rw [dot_document, isValid] at settled
  have value : (written (w.site i).state edit).valid (freshDocument (w.site i).state edit).dot = some true ↔
      ∀ q, Valid (w.site i).state ⟨i, .write⟩ q → q.effect = .allow := by
    rw [settled, Option.some.injEq]
    exact fresh_document_valid_iff rank strategy w causal informed i edit
  refine value.trans ?_
  constructor
  · intro allow q member tuple marked deny
    have value := allow q ⟨(mem_state_policies _ q).mp member, tuple, marked⟩
    rw [deny] at value
    exact absurd value (by decide)
  · intro none q valid
    have refused := none q ((mem_state_policies _ q).mpr valid.1) valid.2.1 valid.2.2
    cases effect : q.effect with
    | allow => rfl
    | deny => exact absurd effect refused

-- A denies and C allows B at the same time, and B learns of both and writes.
def reprieve : List Action :=
  [.policy "A" "B" .write .deny, .policy "C" "B" .write .allow, .sync "B" "A" [⟨"A", 1⟩],
    .sync "B" "C" [⟨"A", 1⟩, ⟨"C", 1⟩], .rebuild "B"]

theorem reprieve_runs : (play .accessibility reprieve).isSome = true := by decide +kernel

def reprievedWorld : World := (play .accessibility reprieve).get reprieve_runs

theorem undenied_write_valid :
    (∃ q ∈ (reprievedWorld.site "B").state.policies, q.tuple = ⟨"B", .write⟩ ∧ q.effect = .deny) ∧
      (effectDocument (reprievedWorld.site "B").state.allocated
        (freshDocument (reprievedWorld.site "B").state (.insert 0 'b'))).valid ⟨"B", 1⟩ = some true :=
  ⟨by decide +kernel, (accepted_write_valid_iff .accessibility reprievedWorld (played .accessibility reprieve reprieve_runs) "B"
    (.insert 0 'b') _ _ _ (update_document_accepted _ _ _ (by decide +kernel))).mpr (by decide +kernel)⟩

def readmitted : List Action :=
  [.policy "A" "B" .write .deny, .policy "A" "B" .write .allow, .sync "B" "A" [⟨"A", 1⟩, ⟨"A", 2⟩], .rebuild "B"]

theorem readmitted_runs : (play .integrity readmitted).isSome = true := by decide +kernel

def readmittedWorld : World := (play .integrity readmitted).get readmitted_runs

-- The edit names the allow it was made under, yet only the deny covers it.
theorem accepted_write_hidden : ¬ ∀ strategy w, CausalRun strategy w → ∀ i edit d s doc,
    updateDocument (w.site i).state (w.site i).doc edit = .ok (d, s, doc) → s.valid d.dot = some true := by
  intro holds
  have shown := holds .integrity readmittedWorld (played .integrity readmitted readmitted_runs) "B" (.insert 0 'b') _ _ _
    (update_document_accepted _ _ _ (by decide +kernel))
  exact absurd shown (by decide +kernel)

end Accure
