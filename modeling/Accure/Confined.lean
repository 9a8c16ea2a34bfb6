import Mathlib.Algebra.Order.BigOperators.Group.List
import Accure.Graphs
import Accure.Rendering

set_option autoImplicit false

namespace Accure

theorem steady_rerank (rank other : Dot → Nat) (s : State) (steady : Steady rank s)
    (agree : ∀ o ∈ s.log, other o.dot = rank o.dot) : Steady other s := by
  refine ⟨⟨steady.nodup, steady.nodes, steady.parents, steady.deps, steady.ordered, ?_⟩, steady.settled, steady.domain⟩
  intro p member a dep
  obtain ⟨q, qIn, _, dot⟩ := steady.deps p member a dep
  have pRank : other p.dot = rank p.dot := agree _ member
  have qRank : other a = rank a := dot ▸ agree _ qIn
  rw [pRank, qRank]
  exact steady.rankDep p member a dep

-- A new op with dependencies of its tuple finds a rank, whatever their levels.
theorem policy_fits (rank : Dot → Nat) (s : State) (p : PolicyOp) (steady : Steady rank s)
    (fresh : ∀ o ∈ s.log, o.dot ≠ p.dot)
    (deps : ∀ a ∈ p.deps, ∃ q, .policy q ∈ s.log ∧ q.tuple = p.tuple ∧ q.dot = a) :
    ∃ other, Steady other s ∧ PolicyFits other s p := by
  refine ⟨Function.update rank p.dot ((p.deps.map rank).sum + 1), steady_rerank rank _ s steady ?_, fresh, deps, ?_⟩
  · exact fun o member => Function.update_of_ne (fresh o member) _ _
  · intro a dep
    obtain ⟨q, member, _, rfl⟩ := deps a dep
    have below := List.single_le_sum (fun _ _ => Nat.zero_le _) _ (List.mem_map_of_mem (f := rank) dep)
    have apart : q.dot ≠ p.dot := fresh _ member
    rw [Function.update_self, Function.update_of_ne apart]
    omega

section Effect

variable (rank : Dot → Nat) (s : State) (p : PolicyOp) (steady : Steady rank s) (fits : PolicyFits rank s p)
variable (linked : DocsLinked s)

include steady fits

theorem effect_policy_op (n : Dot) (t : AccessTuple) (node : n ∈ (s.dagAt t).nodes) :
    (effectPolicy s p).policyOp n = s.policyOp n := by
  have wired := effect_policy_wired rank s p steady fits
  obtain ⟨q, member, _, dot⟩ := (steady.nodes t n).mp node
  rw [(policy_op_some_iff s steady.nodup n q).mpr ⟨member, dot⟩]
  exact (policy_op_some_iff _ wired.nodup n q).mpr ⟨by simp [member], dot⟩

omit steady fits in
theorem effect_dag_elsewhere (t : AccessTuple) (other : t ≠ p.tuple) : (effectPolicy s p).dagAt t = s.dagAt t := by
  rw [effect_policy_dag, admit_dag_elsewhere s p t other]

include linked

theorem effect_keeps_policy (q : PolicyOp) (member : .policy q ∈ s.log) (other : q.tuple ≠ p.tuple) :
    (effectPolicy s p).valid q.dot = s.valid q.dot := by
  rw [effect_policy_value rank s p steady fits (admit_linked s p linked) q (by simp [member]),
    after_arrival_elsewhere rank s p fits steady.toWired q (by simp [member]) other,
    settled_value rank s steady q member]

theorem effect_keeps_node (n : Dot) (t : AccessTuple) (other : t ≠ p.tuple) (node : n ∈ (s.dagAt t).nodes) :
    (effectPolicy s p).markedValid n = s.markedValid n := by
  obtain ⟨q, member, tuple, rfl⟩ := (steady.nodes t n).mp node
  rw [State.markedValid, State.markedValid, effect_keeps_policy rank s p steady fits linked q member (tuple ▸ other)]

theorem effect_keeps_deepest (t : AccessTuple) (other : t ≠ p.tuple) (considers : PolicyOp → Bool) :
    deepest (effectPolicy s p) ((effectPolicy s p).dagAt t) considers = deepest s (s.dagAt t) considers := by
  rw [effect_dag_elsewhere s p t other]
  apply deepest_same s (effectPolicy s p) _ _ (effect_policy_strategy s p)
  · exact fun n node => effect_keeps_node rank s p steady fits linked n t other node
  · exact fun n node => effect_policy_op rank s p steady fits n t node

theorem effect_keeps_eval (site : SiteId) (right : Right) (other : (⟨site, right⟩ : AccessTuple) ≠ p.tuple) :
    eval (effectPolicy s p) site right = eval s site right := by
  rw [eval_eq, eval_eq, effect_keeps_deepest rank s p steady fits linked ⟨site, right⟩ other]

theorem effect_keeps_document (settled : AllSettled s) (d : DocOp) (member : .document d ∈ s.log)
    (deps : ∀ a ∈ d.deps, ∃ q, .policy q ∈ s.log ∧ q.tuple = d.tuple ∧ q.dot = a) (other : d.tuple ≠ p.tuple) :
    (effectPolicy s p).valid d.dot = s.valid d.dot := by
  have after := effect_policy_settled rank s p steady fits (admit_linked s p linked) (.document d) (by simp [member])
  have before := settled (.document d) member
  rw [dot_document] at after before
  rw [after, before, isValid, isValid, is_valid_document_eq, is_valid_document_eq,
    effect_keeps_deepest rank s p steady fits linked d.tuple other]
  congr 2
  apply deps_accepted_same s (effectPolicy s p) d
  intro a dep
  obtain ⟨q, qIn, tuple, rfl⟩ := deps a dep
  exact effect_keeps_policy rank s p steady fits linked q qIn (tuple ▸ other)

end Effect

-- What an op of one tuple leaves as it was.
structure Confined (s next : State) (p : PolicyOp) : Prop where
  graphs : ∀ t, t ≠ p.tuple → next.g t = s.g t
  flags : ∀ d, s.valid d ≠ none → (∀ q, .policy q ∈ s.log → q.dot = d → q.tuple ≠ p.tuple) →
    (∀ e, .document e ∈ s.log → e.dot = d → ¬ (p.right = .write ∧ e.dot.site = p.target)) → next.valid d = s.valid d
  rights : ∀ site right, (⟨site, right⟩ : AccessTuple) ≠ p.tuple → eval next site right = eval s site right
  counters : ∀ site key, site ≠ p.dot.site → next.nextN (site, key) = s.nextN (site, key)
  text : p.right ≠ .write → currentText next = currentText s

theorem effect_graph_elsewhere (s : State) (p : PolicyOp) (t : AccessTuple) (other : t ≠ p.tuple) :
    (effectPolicy s p).g t = s.g t := by
  obtain ⟨v, frame, _⟩ := effect_policy_frame s p
  rw [frame]
  exact Function.update_of_ne other _ _

theorem effect_counter_elsewhere (s : State) (p : PolicyOp) (site : SiteId) (key : TupleKey) (other : site ≠ p.dot.site) :
    (effectPolicy s p).nextN (site, key) = s.nextN (site, key) := by
  rw [effect_policy_next]
  exact Function.update_of_ne (fun same => other (congrArg Prod.fst same)) _ _

theorem document_tuple_iff (d : DocOp) (p : PolicyOp) : d.tuple = p.tuple ↔ p.right = .write ∧ d.dot.site = p.target := by
  rw [DocOp.tuple, PolicyOp.tuple, AccessTuple.mk.injEq]
  exact ⟨fun both => ⟨both.2.symm, both.1⟩, fun both => ⟨both.2, both.1.symm⟩⟩

theorem arrival_confined (rank : Dot → Nat) (s : State) (p : PolicyOp) (sound : Sound rank s)
    (fresh : ∀ o ∈ s.log, o.dot ≠ p.dot)
    (deps : ∀ a ∈ p.deps, ∃ q, .policy q ∈ s.log ∧ q.tuple = p.tuple ∧ q.dot = a) : Confined s (effectPolicy s p) p := by
  obtain ⟨other, steady, fits⟩ := policy_fits rank s p sound.steady fresh deps
  have documents : ∀ e, .document e ∈ s.log → ¬ (p.right = .write ∧ e.dot.site = p.target) →
      (effectPolicy s p).valid e.dot = s.valid e.dot := by
    intro e member elsewhere
    exact effect_keeps_document other s p steady fits sound.linked sound.settled e member (sound.docDeps e member)
      (fun same => elsewhere ((document_tuple_iff e p).mp same))
  refine ⟨effect_graph_elsewhere s p, ?_, effect_keeps_eval other s p steady fits sound.linked,
    effect_counter_elsewhere s p, ?_⟩
  · intro d present otherPolicy otherDocument
    obtain ⟨o, member, rfl⟩ := sound.domain d present
    cases o with
    | policy q => exact effect_keeps_policy other s p steady fits sound.linked q member (otherPolicy q member rfl)
    | document e => exact documents e member (otherDocument e member rfl)
  · intro notWrite
    apply render_text_congr _ _ _ _ (doc_dots_nodup _ (effect_policy_wired other s p steady fits).nodup)
      (doc_dots_nodup _ sound.nodup)
    intro d
    have logged : .document d ∈ (effectPolicy s p).log ↔ .document d ∈ s.log := by simp
    rw [logged]
    constructor
    · rintro ⟨member, shown⟩
      exact ⟨member, documents d member (fun both => notWrite both.1) ▸ shown⟩
    · rintro ⟨member, shown⟩
      exact ⟨member, (documents d member (fun both => notWrite both.1)).trans shown⟩

theorem policy_change_confined (strategy : Strategy) (w : World) (run : CausalRun strategy w) (i : SiteId) (p : PolicyOp)
    (fresh : ∀ o ∈ (w.site i).state.log, o.dot ≠ p.dot)
    (deps : ∀ a ∈ p.deps, ∃ q, .policy q ∈ (w.site i).state.log ∧ q.tuple = p.tuple ∧ q.dot = a) :
    Confined (w.site i).state (effectPolicy (w.site i).state p) p := by
  obtain ⟨rank, causal⟩ := causal_run strategy w run
  exact arrival_confined rank _ p (causal.sound i) fresh deps

theorem ladder_runs_alike : (play .integrity ladder).isSome = true := by decide +kernel

theorem uneven_deny_confined :
    let s := (((play .integrity ladder).get ladder_runs_alike).site "A").state
    let p : PolicyOp := ⟨⟨"C", 1⟩, "C", .write, .deny, [⟨"A", 1⟩, ⟨"B", 1⟩], none, []⟩
    Confined s (effectPolicy s p) p := by
  refine policy_change_confined .integrity _ (played .integrity ladder ladder_runs_alike) "A" _ (by decide +kernel) ?_
  intro a dep
  rcases List.mem_cons.mp dep with rfl | later
  · exact ⟨⟨⟨"A", 1⟩, "C", .write, .allow, [], none, []⟩, by decide +kernel, rfl, rfl⟩
  · cases List.mem_singleton.mp later
    exact ⟨⟨⟨"B", 1⟩, "C", .write, .allow, [⟨"A", 2⟩], none, []⟩, by decide +kernel, rfl, rfl⟩

end Accure
