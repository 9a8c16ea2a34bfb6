import Accure.Arrival
import Accure.Rendering

set_option autoImplicit false

namespace Accure

section Alike

variable (rank : Dot → Nat) (s u : State) (resolved : Resolved rank s) (uResolved : Resolved rank u)
variable (strategy : u.strategy = s.strategy) (same : ∀ o, o ∈ u.log ↔ o ∈ s.log)

include resolved uResolved same

theorem same_dag (t : AccessTuple) : u.dagAt t = s.dagAt t := by
  apply dag_ext
  · intro d
    rw [uResolved.nodes, resolved.nodes]
    simp only [same]
  · intro d e
    rw [uResolved.parents, resolved.parents]
    simp only [same]

theorem same_policy_op (d : Dot) : u.policyOp d = s.policyOp d := by
  apply Option.ext
  intro p
  rw [policy_op_some_iff u uResolved.nodup, policy_op_some_iff s resolved.nodup, same]

include strategy

theorem same_graph (t : AccessTuple) : u.graph t = s.graph t := by
  rw [State.graph, State.graph, same_dag rank s u resolved uResolved same t, strategy]
  simp only [same]

variable (marks : ∀ p, .policy p ∈ s.log → u.markedValid p.dot = s.markedValid p.dot)

include marks

omit uResolved strategy same in
theorem same_node_marked (t : AccessTuple) (n : Dot) (node : n ∈ (s.dagAt t).nodes) : u.markedValid n = s.markedValid n := by
  obtain ⟨p, member, _, rfl⟩ := (resolved.nodes t n).mp node
  exact marks p member

theorem same_valid : u.valid = s.valid := by
  have policies : ∀ p, .policy p ∈ s.log → u.valid p.dot = s.valid p.dot := by
    intro p member
    rw [settled_value rank u uResolved.toSteady p ((same _).mpr member), settled_value rank s resolved.toSteady p member,
      marks p member]
  funext d
  by_cases present : ∃ o ∈ s.log, o.dot = d
  · obtain ⟨o, member, rfl⟩ := present
    cases o with
    | policy p => exact policies p member
    | document e =>
        rw [uResolved.every _ ((same _).mpr member), resolved.every _ member]
        apply congrArg some
        apply is_valid_document_same s u e strategy (same_dag rank s u resolved uResolved same e.tuple)
        · exact same_node_marked rank s u resolved marks e.tuple
        · exact fun n _ => same_policy_op rank s u resolved uResolved same n
        · intro a dep
          obtain ⟨q, qIn, rfl⟩ := resolved.linked e member a dep
          exact policies q qIn
  · have absent : ∀ x : State, Resolved rank x → (∀ o, o ∈ x.log ↔ o ∈ s.log) → x.valid d = none := by
      intro x xResolved xSame
      apply unmarked_of_absent x xResolved.domain d
      exact fun o member dot => present ⟨o, (xSame o).mp member, dot⟩
    rw [absent u uResolved same, absent s resolved (fun _ => Iff.rfl)]

theorem same_eval (site : SiteId) (right : Right) : eval u site right = eval s site right := by
  rw [eval_eq, eval_eq, same_dag rank s u resolved uResolved same]
  apply congrArg allowedBy
  apply deepest_same s u _ _ strategy
  · exact same_node_marked rank s u resolved marks ⟨site, right⟩
  · exact fun n _ => same_policy_op rank s u resolved uResolved same n

theorem same_text : currentText u = currentText s := by
  apply render_text_congr _ _ _ _ (doc_dots_nodup _ uResolved.nodup) (doc_dots_nodup _ resolved.nodup)
  intro d
  rw [same, same_valid rank s u resolved uResolved strategy same marks]

end Alike

end Accure
