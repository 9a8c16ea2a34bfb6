import Accure.Alike
import Accure.Confined
import Accure.Decisions
import Accure.Unordered

set_option autoImplicit false

namespace Accure

-- What an observer sees of a state, the order of its log apart.
structure SameOutcome (s u : State) : Prop where
  graphs : u.g = s.g
  flags : u.valid = s.valid
  counters : u.nextN = s.nextN
  rights : ∀ site right, eval u site right = eval s site right
  text : currentText u = currentText s

theorem alike_outcome (rank : Dot → Nat) (s u : State) (resolved : Resolved rank s) (uResolved : Resolved rank u)
    (strategy : u.strategy = s.strategy) (same : ∀ o, o ∈ u.log ↔ o ∈ s.log)
    (marks : ∀ p, .policy p ∈ s.log → u.markedValid p.dot = s.markedValid p.dot) (graphs : u.g = s.g)
    (counters : u.nextN = s.nextN) : SameOutcome s u :=
  ⟨graphs, same_valid rank s u resolved uResolved strategy same marks, counters,
    same_eval rank s u resolved uResolved strategy same marks, same_text rank s u resolved uResolved strategy same marks⟩

theorem notes_commute (s one two : State) (a b : Dot) (key other : TupleKey)
    (left : one.nextN = (s.noteN a.site key a.n).nextN) (right : two.nextN = (s.noteN b.site other b.n).nextN) :
    (one.noteN b.site other b.n).nextN = (two.noteN a.site key a.n).nextN := by
  funext ⟨site, here⟩
  rw [note_next, note_next, left, right, note_next, note_next, note_next, note_next]
  by_cases counter : here = .site
  · by_cases byA : site = a.site
    · by_cases byB : site = b.site
      · simp [counter, ← byA, ← byB, max_left_comm]
      · simp [counter, byA, byA ▸ byB]
    · by_cases byB : site = b.site
      · simp [counter, byB, byB ▸ byA]
      · simp [byA, byB]
  · simp [counter]

theorem policy_dot_append (log rest : List Operation) (a : Dot) (policy : IsPolicyDot log a) : IsPolicyDot (log ++ rest) a := by
  obtain ⟨q, member, dot⟩ := policy
  exact ⟨q, List.mem_append_left rest member, dot⟩

theorem log_document_linked (s : State) (d : DocOp) (linked : DocsLinked s) (deps : ∀ a ∈ d.deps, IsPolicyDot s.log a) :
    DocsLinked (logDocument s d) := by
  intro e member a dep
  rcases List.mem_append.mp member with old | new
  · exact policy_dot_append s.log _ a (linked e old a dep)
  · cases List.mem_singleton.mp new
    exact policy_dot_append s.log _ a (deps a dep)

theorem effect_document_keeps (s : State) (d : DocOp) (a : Dot) (apart : a ≠ d.dot) :
    (effectDocument s d).markedValid a = s.markedValid a :=
  congrArg (fun flag => Option.getD flag false) (Function.update_of_ne apart _ _)

theorem fresh_after (log : List Operation) (o : Operation) (d : Dot) (fresh : ∀ x ∈ log, x.dot ≠ d) (apart : o.dot ≠ d) :
    ∀ x ∈ log ++ [o], x.dot ≠ d := by
  intro x member
  rcases List.mem_append.mp member with old | new
  · exact fresh x old
  · rw [List.mem_singleton.mp new]
    exact apart

theorem documents_commute (rank : Dot → Nat) (s : State) (resolved : Resolved rank s) (d e : DocOp)
    (freshD : ∀ o ∈ s.log, o.dot ≠ d.dot) (freshE : ∀ o ∈ s.log, o.dot ≠ e.dot) (apart : d.dot ≠ e.dot)
    (dDeps : ∀ a ∈ d.deps, IsPolicyDot s.log a) (eDeps : ∀ a ∈ e.deps, IsPolicyDot s.log a) :
    SameOutcome (effectDocument (effectDocument s d) e) (effectDocument (effectDocument s e) d) := by
  have both : ∀ x y : DocOp, (∀ o ∈ s.log, o.dot ≠ x.dot) → (∀ o ∈ s.log, o.dot ≠ y.dot) → x.dot ≠ y.dot →
      (∀ a ∈ x.deps, IsPolicyDot s.log a) → (∀ a ∈ y.deps, IsPolicyDot s.log a) →
      Resolved rank (effectDocument (effectDocument s x) y) := by
    intro x y freshX freshY xy xDeps yDeps
    have one := effect_document_resolved rank s x freshX resolved (log_document_linked s x resolved.linked xDeps)
    exact effect_document_resolved rank _ y (fresh_after s.log (.document x) y.dot freshY xy) one
      (log_document_linked _ y one.linked (fun a dep => policy_dot_append s.log _ a (yDeps a dep)))
  apply alike_outcome rank _ _ (both d e freshD freshE apart dDeps eDeps) (both e d freshE freshD apart.symm eDeps dDeps) rfl
  · intro o
    simp only [effect_document_log, List.mem_append, List.mem_singleton]
    tauto
  · intro p member
    have old : .policy p ∈ s.log := by simpa using member
    have notD : p.dot ≠ d.dot := freshD _ old
    have notE : p.dot ≠ e.dot := freshE _ old
    rw [effect_document_keeps _ d _ notD, effect_document_keeps _ e _ notE, effect_document_keeps _ e _ notE,
      effect_document_keeps _ d _ notD]
  · rfl
  · exact notes_commute s (effectDocument s e) (effectDocument s d) e.dot d.dot (.document e.dot.site)
      (.document d.dot.site) rfl rfl

theorem effect_policy_graphs (s : State) (p : PolicyOp) : (effectPolicy s p).g = (admitPolicy s p).g := by
  obtain ⟨v, frame, _⟩ := effect_policy_frame s p
  rw [frame]
  rfl

section Pair

variable (s : State) (d : DocOp) (p : PolicyOp)

theorem admit_graph_beside (t : AccessTuple) : (admitPolicy (effectDocument s d) p).graph t = (admitPolicy s p).graph t := by
  have wins : ((admitPolicy (effectDocument s d) p).graph t).wins = ((admitPolicy s p).graph t).wins := by
    funext x
    simp only [State.graph, mem_admit_log, effect_document_log, List.mem_append, List.mem_singleton, reduceCtorEq, or_false]
    rfl
  rw [State.graph, State.graph, Conflict.Graph.mk.injEq]
  exact ⟨rfl, rfl, wins⟩

theorem after_arrival_beside (admitted : d.dot ∉ ((admitPolicy s p).dagAt p.tuple).nodes) (x : Dot) (apart : x ≠ d.dot) :
    afterArrival (effectDocument s d) p x = afterArrival s p x := by
  have marks : ∀ y, y ≠ d.dot → ((effectDocument s d).Marked y ↔ s.Marked y) := by
    intro y different
    rw [State.Marked, State.Marked, effect_document_keeps s d y different]
  have dag : (admitPolicy (effectDocument s d) p).dagAt p.tuple = (admitPolicy s p).dagAt p.tuple := rfl
  by_cases node : x ∈ ((admitPolicy s p).dagAt p.tuple).nodes
  · rw [Bool.eq_iff_iff, after_arrival_here s p x node, after_arrival_here _ p x (dag ▸ node), admit_graph_beside s d p]
    apply Conflict.arrived_congr _ _ _ _ _ _ _ node
    · exact fun y edge => (((admitPolicy s p).dagAt p.tuple).endpoints y p.dot edge).1
    · exact fun y yNode => marks y (fun same => admitted (same ▸ yNode))
  · rw [afterArrival, afterArrival, if_neg node, if_neg (dag ▸ node), effect_document_keeps s d x apart]

theorem fits_beside (rank : Dot → Nat) (fits : PolicyFits rank s p) (apart : d.dot ≠ p.dot) :
    PolicyFits rank (effectDocument s d) p := by
  refine ⟨fresh_after s.log (.document d) p.dot fits.fresh apart, ?_, fits.rankDep⟩
  intro a dep
  obtain ⟨q, member, tuple, dot⟩ := fits.deps a dep
  exact ⟨q, by simp [member], tuple, dot⟩

theorem linked_beside (linked : DocsLinked s) (deps : ∀ a ∈ d.deps, IsPolicyDot s.log a ∨ a = p.dot) :
    DocsLinked (admitPolicy (effectDocument s d) p) := by
  intro e member a dep
  have either : .document e ∈ s.log ∨ e = d := by simpa using member
  have known : IsPolicyDot s.log a ∨ a = p.dot := by
    rcases either with old | rfl
    · exact Or.inl (linked e old a dep)
    · exact deps a dep
  rcases known with ⟨q, qIn, dot⟩ | rfl
  · exact ⟨q, by simp [qIn], dot⟩
  · exact ⟨p, by simp, rfl⟩

variable (rank : Dot → Nat) (resolved : Resolved rank s) (fits : PolicyFits rank s p)
variable (fresh : ∀ o ∈ s.log, o.dot ≠ d.dot) (apart : d.dot ≠ p.dot)
variable (deps : ∀ a ∈ d.deps, IsPolicyDot s.log a ∨ a = p.dot)

include resolved fits fresh apart deps

theorem document_first_resolved : Resolved rank (effectPolicy (effectDocument s d) p) :=
  effect_policy_resolved rank _ p (effect_document_steady rank s d fresh resolved.toSteady)
    (fits_beside s d p rank fits apart)
    (linked_beside s d p resolved.linked deps)

theorem policy_first_resolved : Resolved rank (effectDocument (effectPolicy s p) d) := by
  have one := effect_policy_resolved rank s p resolved.toSteady fits (admit_linked s p resolved.linked)
  apply effect_document_resolved rank _ d _ one
  · apply log_document_linked _ d one.linked
    intro a dep
    rw [effect_policy_log]
    rcases deps a dep with known | rfl
    · exact policy_dot_append s.log _ a known
    · exact ⟨p, by simp, rfl⟩
  · rw [effect_policy_log]
    exact fresh_after s.log (.policy p) d.dot fresh apart.symm

theorem document_policy_commute :
    SameOutcome (effectPolicy (effectDocument s d) p) (effectDocument (effectPolicy s p) d) := by
  have admitted := admit_wired rank s p resolved.toWired fits
  have notNode : d.dot ∉ ((admitPolicy s p).dagAt p.tuple).nodes := by
    intro node
    obtain ⟨q, member, _, dot⟩ := (admitted.nodes _ _).mp node
    exact fresh_after s.log (.policy p) d.dot fresh apart.symm _ member dot
  apply alike_outcome rank _ _ (document_first_resolved s d p rank resolved fits fresh apart deps)
    (policy_first_resolved s d p rank resolved fits fresh apart deps)
  · simp
  · intro o
    simp only [effect_document_log, effect_policy_log, List.mem_append, List.mem_singleton]
    tauto
  · intro q member
    have inside : .policy q ∈ s.log ∨ q = p := by simpa using member
    have different : q.dot ≠ d.dot := by
      rcases inside with old | rfl
      · exact fresh _ old
      · exact apart.symm
    have first := effect_policy_value rank _ p (effect_document_steady rank s d fresh resolved.toSteady)
      (fits_beside s d p rank fits apart)
      (linked_beside s d p resolved.linked deps) q (by simpa using inside)
    have second := effect_policy_value rank s p resolved.toSteady fits (admit_linked s p resolved.linked) q
      (by simpa using inside)
    rw [effect_document_keeps _ d _ different, State.markedValid, State.markedValid, first, second,
      after_arrival_beside s d p notNode q.dot different]
  · exact (effect_policy_graphs s p).trans (effect_policy_graphs (effectDocument s d) p).symm
  · rw [effect_policy_next]
    exact notes_commute s (effectPolicy s p) (effectDocument s d) p.dot d.dot (.policy p.tuple) (.document d.dot.site)
      (effect_policy_next s p) rfl

end Pair

theorem integrations_commute (strategy : Strategy) (w : World) (run : CausalRun strategy w) (i : SiteId) (d : DocOp)
    (fresh : ∀ o ∈ (w.site i).state.log, o.dot ≠ d.dot) :
    (∀ p : PolicyOp, (∀ o ∈ (w.site i).state.log, o.dot ≠ p.dot) → d.dot ≠ p.dot →
      (∀ a ∈ p.deps, ∃ q, .policy q ∈ (w.site i).state.log ∧ q.tuple = p.tuple ∧ q.dot = a) →
      (∀ a ∈ d.deps, IsPolicyDot (w.site i).state.log a ∨ a = p.dot) →
      SameOutcome (effectPolicy (effectDocument (w.site i).state d) p) (effectDocument (effectPolicy (w.site i).state p) d) ∧
        (effectPolicy (effectDocument (w.site i).state d) p).log = (w.site i).state.log ++ [.document d, .policy p] ∧
        (effectDocument (effectPolicy (w.site i).state p) d).log = (w.site i).state.log ++ [.policy p, .document d]) ∧
    (∀ e : DocOp, (∀ o ∈ (w.site i).state.log, o.dot ≠ e.dot) → d.dot ≠ e.dot →
      (∀ a ∈ d.deps, IsPolicyDot (w.site i).state.log a) → (∀ a ∈ e.deps, IsPolicyDot (w.site i).state.log a) →
      SameOutcome (effectDocument (effectDocument (w.site i).state d) e) (effectDocument (effectDocument (w.site i).state e) d) ∧
        (effectDocument (effectDocument (w.site i).state d) e).log = (w.site i).state.log ++ [.document d, .document e] ∧
        (effectDocument (effectDocument (w.site i).state e) d).log = (w.site i).state.log ++ [.document e, .document d]) := by
  obtain ⟨rank, causal⟩ := causal_run strategy w run
  have sound := causal.sound i
  constructor
  · intro p pFresh apart pDeps dDeps
    obtain ⟨other, steady, fits⟩ := policy_fits rank _ p sound.steady pFresh pDeps
    have resolved : Resolved other (w.site i).state :=
      resolved_of_every other _ steady.toWired sound.linked sound.settled sound.domain
    exact ⟨document_policy_commute _ d p other resolved fits fresh apart dDeps, by simp, by simp⟩
  · intro e eFresh apart dDeps eDeps
    exact ⟨documents_commute rank _ sound.resolved d e fresh eFresh apart dDeps eDeps, by simp, by simp⟩

theorem contested_commute :
    let s := (contested.site "A").state
    let p : PolicyOp := ⟨⟨"D", 1⟩, "C", .write, .deny, [⟨"A", 2⟩], none, []⟩
    let d : DocOp := ⟨⟨"C", 1⟩, [⟨"D", 1⟩], .insert 0 'c'⟩
    let e : DocOp := ⟨⟨"C", 2⟩, [⟨"B", 1⟩], .insert 0 'e'⟩
    let f : DocOp := ⟨⟨"C", 3⟩, [], .delete 0⟩
    SameOutcome (effectPolicy (effectDocument s d) p) (effectDocument (effectPolicy s p) d) ∧
      SameOutcome (effectDocument (effectDocument s e) f) (effectDocument (effectDocument s f) e) := by
  intro s p d e f
  have run := played .integrity contest contest_runs
  constructor
  · refine ((integrations_commute .integrity contested run "A" d (by decide +kernel)).1 p (by decide +kernel) (by decide)
      ?_ ?_).1
    · intro a dep
      cases List.mem_singleton.mp dep
      exact ⟨⟨⟨"A", 2⟩, "C", .write, .deny, [⟨"A", 1⟩], none, []⟩, by decide +kernel, rfl, rfl⟩
    · exact fun a dep => Or.inr (List.mem_singleton.mp dep)
  · refine ((integrations_commute .integrity contested run "A" e (by decide +kernel)).2 f (by decide +kernel) (by decide)
      ?_ ?_).1
    · intro a dep
      cases List.mem_singleton.mp dep
      exact ⟨⟨⟨"B", 1⟩, "C", .write, .allow, [], none, []⟩, by decide +kernel, rfl⟩
    · exact fun a dep => absurd dep List.not_mem_nil

end Accure
