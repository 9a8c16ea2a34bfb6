import Mathlib.Logic.Function.Iterate
import Accure.PolicyGraph

set_option autoImplicit false

namespace Accure

def State.withValid (s : State) (valid : Dot → Option Bool) : State := { s with valid := valid }

@[simp] theorem with_valid_log (s : State) (valid : Dot → Option Bool) : (s.withValid valid).log = s.log := rfl

@[simp] theorem with_valid_valid (s : State) (valid : Dot → Option Bool) : (s.withValid valid).valid = valid := rfl

@[simp] theorem with_valid_twice (s : State) (a b : Dot → Option Bool) :
    (s.withValid a).withValid b = s.withValid b := rfl

def IsPolicyDot (log : List Operation) (d : Dot) : Prop := ∃ p, .policy p ∈ log ∧ p.dot = d

theorem consistent_with_valid (rank : Dot → Nat) (s : State) (valid : Dot → Option Bool)
    (consistent : Consistent rank s) : Consistent rank (s.withValid valid) :=
  ⟨consistent.nodup, consistent.nodes, consistent.parents, consistent.deps, consistent.docDeps, consistent.ordered,
    consistent.rankRoot, consistent.rankDep⟩

theorem wired_with_valid (rank : Dot → Nat) (s : State) (valid : Dot → Option Bool) (wired : Wired rank s) :
    Wired rank (s.withValid valid) :=
  ⟨wired.nodup, wired.nodes, wired.parents, wired.deps, wired.ordered, wired.rankDep⟩

def DocsLinked (s : State) : Prop := ∀ d, .document d ∈ s.log → ∀ a ∈ d.deps, IsPolicyDot s.log a

theorem Consistent.linked {rank : Dot → Nat} {s : State} (consistent : Consistent rank s) : DocsLinked s := by
  intro d member a dep
  obtain ⟨q, qIn, _, dot⟩ := consistent.docDeps d member a dep
  exact ⟨q, qIn, dot⟩

section Agreement

variable (rank : Dot → Nat) (s : State) (wired : Wired rank s)
variable (v w : Dot → Option Bool) (agree : ∀ d, IsPolicyDot s.log d → v d = w d)

include wired agree

theorem is_valid_policy_agree (p : PolicyOp) (member : .policy p ∈ s.log) :
    isValid (s.withValid v) (.policy p) = isValid (s.withValid w) (.policy p) := by
  rw [Bool.eq_iff_iff, is_valid_policy_op rank _ (wired_with_valid rank s v wired) p member,
    is_valid_policy_op rank _ (wired_with_valid rank s w wired) p member]
  apply Conflict.accepted_congr (s.graph p.tuple)
  · exact fun a edge => ((s.dagAt p.tuple).endpoints a p.dot edge).1
  · intro y node
    obtain ⟨q, qIn, _, dot⟩ := (wired.nodes p.tuple y).mp node
    simp only [State.Marked, State.markedValid, with_valid_valid, agree y ⟨q, qIn, dot⟩]

theorem is_valid_document_agree (d : DocOp) (deps : ∀ a ∈ d.deps, IsPolicyDot s.log a) :
    isValidDocument (s.withValid v) d = isValidDocument (s.withValid w) d := by
  apply is_valid_document_same (s.withValid w) (s.withValid v) d rfl rfl
  · intro n node
    obtain ⟨p, pIn, _, dot⟩ := (wired.nodes d.tuple n).mp node
    simp only [State.markedValid, with_valid_valid, agree n ⟨p, pIn, dot⟩]
  · exact fun _ _ => rfl
  · exact fun a dep => agree a (deps a dep)

theorem is_valid_agree (linked : DocsLinked s) (o : Operation) (member : o ∈ s.log) :
    isValid (s.withValid v) o = isValid (s.withValid w) o := by
  cases o with
  | policy p => exact is_valid_policy_agree rank s wired v w agree p member
  | document d => exact is_valid_document_agree rank s wired v w agree d (linked d member)

end Agreement

def recheckAll (s : State) (ops : List Operation) (valid : Dot → Option Bool) : Dot → Option Bool :=
  ops.foldl (fun v o => Function.update v o.dot (some (isValid (s.withValid v) o))) valid

def sweep (s : State) : State := (validityRound s).state

theorem recheck_same (round : Round) (o : Operation) (same : round.state.valid o.dot = some (isValid round.state o)) :
    recheck round o = round := by
  unfold recheck
  exact if_pos same

theorem recheck_flags (round : Round) (o : Operation) (differs : round.state.valid o.dot ≠ some (isValid round.state o)) :
    (recheck round o).changed = true ∧ (recheck round o).state =
      round.state.withValid (Function.update round.state.valid o.dot (some (isValid round.state o))) := by
  unfold recheck
  dsimp only
  rw [if_neg differs]
  exact ⟨rfl, rfl⟩

theorem recheck_state (s : State) (v : Dot → Option Bool) (traces : List Trace) (changed : Bool) (o : Operation) :
    (recheck ⟨s.withValid v, traces, changed⟩ o).state =
      s.withValid (Function.update v o.dot (some (isValid (s.withValid v) o))) := by
  by_cases same : v o.dot = some (isValid (s.withValid v) o)
  · rw [recheck_same _ o same, ← same, Function.update_eq_self]
  · exact (recheck_flags _ o same).2

theorem foldl_recheck_state (s : State) (ops : List Operation) (v : Dot → Option Bool) (round : Round)
    (start : round.state = s.withValid v) : (ops.foldl recheck round).state = s.withValid (recheckAll s ops v) := by
  induction ops generalizing v round with
  | nil => exact start
  | cons o tail ih =>
      rw [List.foldl_cons, recheckAll, List.foldl_cons]
      apply ih
      obtain ⟨state, traces, changed⟩ := round
      cases start
      exact recheck_state s v traces changed o

theorem sweep_eq (s : State) : sweep s = s.withValid (recheckAll s s.log s.valid) :=
  foldl_recheck_state s s.log s.valid ⟨s, [], false⟩ rfl

theorem recheck_changed (round : Round) (o : Operation) :
    recheck round o = round ∨ (recheck round o).changed = true := by
  by_cases same : round.state.valid o.dot = some (isValid round.state o)
  · exact Or.inl (recheck_same round o same)
  · exact Or.inr (recheck_flags round o same).1

theorem foldl_recheck_changed (ops : List Operation) (round : Round) (changed : round.changed = true) :
    (ops.foldl recheck round).changed = true := by
  induction ops generalizing round with
  | nil => exact changed
  | cons o tail ih =>
      rw [List.foldl_cons]
      apply ih
      rcases recheck_changed round o with same | flagged
      · rw [same, changed]
      · exact flagged

theorem foldl_recheck_unchanged (ops : List Operation) (round : Round)
    (unchanged : (ops.foldl recheck round).changed = false) : ops.foldl recheck round = round := by
  induction ops generalizing round with
  | nil => rfl
  | cons o tail ih =>
      rw [List.foldl_cons] at unchanged ⊢
      rcases recheck_changed round o with same | flagged
      · rw [same] at unchanged ⊢
        exact ih round unchanged
      · rw [foldl_recheck_changed tail _ flagged] at unchanged
        exact absurd unchanged (by simp)

def AllSettled (s : State) : Prop := ∀ o ∈ s.log, s.valid o.dot = some (isValid s o)

theorem settled_round (s : State) (settled : AllSettled s) : validityRound s = ⟨s, [], false⟩ := by
  have still : ∀ ops : List Operation, (∀ o ∈ ops, o ∈ s.log) → ops.foldl recheck ⟨s, [], false⟩ = ⟨s, [], false⟩ := by
    intro ops
    induction ops with
    | nil => exact fun _ => rfl
    | cons o tail ih =>
        intro inside
        rw [List.foldl_cons, recheck_same _ o (settled o (inside o (by simp)))]
        exact ih (fun p member => inside p (by simp [member]))
  exact still s.log (fun _ member => member)

theorem settled_rebuild (s : State) (settled : AllSettled s) (rounds : Nat) :
    rebuildRounds (rounds + 1) s = (s, [], true) := by
  simp [rebuildRounds, settled_round s settled]

-- The loop breaks one round after the register stops moving.
theorem rounds_reach (count rounds : Nat) (s : State) (enough : count < rounds)
    (settled : AllSettled (sweep^[count] s)) :
    (rebuildRounds rounds s).1 = sweep^[count] s ∧ (rebuildRounds rounds s).2.2 = true := by
  induction count generalizing rounds s with
  | zero =>
      obtain ⟨less, rfl⟩ := Nat.exists_eq_add_of_lt enough
      rw [Nat.zero_add, settled_rebuild s settled]
      exact ⟨rfl, rfl⟩
  | succ count ih =>
      obtain ⟨rounds, rfl⟩ : ∃ fewer, rounds = fewer + 1 := ⟨rounds - 1, by omega⟩
      rw [Function.iterate_succ_apply] at settled ⊢
      cases changed : (validityRound s).changed with
      | true =>
          simp only [rebuildRounds, changed, if_true]
          exact ih rounds (sweep s) (by omega) settled
      | false =>
          have fixed : sweep s = s := congrArg Round.state (foldl_recheck_unchanged s.log ⟨s, [], false⟩ changed)
          rw [fixed, Function.iterate_fixed fixed]
          simp only [rebuildRounds, changed, Bool.false_eq_true, if_false]
          exact ⟨fixed, trivial⟩

theorem recheck_all_elsewhere (s : State) (ops : List Operation) (v : Dot → Option Bool) (d : Dot)
    (absent : ∀ o ∈ ops, o.dot ≠ d) : recheckAll s ops v d = v d := by
  induction ops generalizing v with
  | nil => rfl
  | cons o tail ih =>
      rw [recheckAll, List.foldl_cons]
      refine (ih _ (fun p member => absent p (by simp [member]))).trans ?_
      exact Function.update_of_ne (Ne.symm (absent o (by simp))) _ _

-- Policy ops take their target values in log order: an op is evaluated when
-- those before it are done and those from it on still hold their old values.
theorem recheck_policies (s : State) (nodup : (s.log.map Operation.dot).Nodup) (target : Dot → Bool)
    (old : Dot → Option Bool)
    (step : ∀ before p after v, s.log = before ++ .policy p :: after →
      (∀ q, .policy q ∈ before → v q.dot = some (target q.dot)) →
      (∀ q, .policy q ∈ Operation.policy p :: after → v q.dot = old q.dot) →
      isValid (s.withValid v) (.policy p) = target p.dot)
    (q : PolicyOp) (member : .policy q ∈ s.log) : recheckAll s s.log old q.dot = some (target q.dot) := by
  have walk : ∀ after before v, s.log = before ++ after →
      (∀ q, .policy q ∈ before → v q.dot = some (target q.dot)) →
      (∀ q, .policy q ∈ after → v q.dot = old q.dot) →
      ∀ q, .policy q ∈ s.log → recheckAll s after v q.dot = some (target q.dot) := by
    intro after
    induction after with
    | nil =>
        intro before v split done _ q qIn
        rw [List.append_nil] at split
        exact done q (split ▸ qIn)
    | cons o tail ih =>
        intro before v split done waiting
        have distinct := split ▸ nodup
        simp only [List.map_append, List.map_cons, List.nodup_append, List.nodup_cons, List.mem_map] at distinct
        obtain ⟨_, ⟨notLater, _⟩, apart⟩ := distinct
        rw [recheckAll, List.foldl_cons]
        apply ih (before ++ [o])
        · rw [split, List.append_assoc, List.singleton_append]
        · intro r rIn
          rcases List.mem_append.mp rIn with earlier | here
          · have different : r.dot ≠ o.dot := apart _ ⟨_, earlier, rfl⟩ _ (by simp)
            rw [Function.update_of_ne different]
            exact done r earlier
          · have same := List.mem_singleton.mp here
            subst same
            rw [dot_policy, Function.update_self]
            exact congrArg some (step before r tail v split done waiting)
        · intro r rIn
          have different : r.dot ≠ o.dot := fun same => notLater ⟨_, rIn, same⟩
          rw [Function.update_of_ne different]
          exact waiting r (by simp [rIn])
  exact walk s.log [] old rfl (by simp) (fun _ _ => rfl) q member

theorem rebuild_frame (rounds : Nat) (s : State) : ∃ v, (rebuildRounds rounds s).1 = s.withValid v ∧
    ∀ d, (∀ o ∈ s.log, o.dot ≠ d) → v d = s.valid d := by
  induction rounds generalizing s with
  | zero => exact ⟨s.valid, rfl, fun _ _ => rfl⟩
  | succ rounds ih =>
      have round := sweep_eq s
      have frame := recheck_all_elsewhere s s.log s.valid
      cases changed : (validityRound s).changed with
      | false =>
          simp only [rebuildRounds, changed, Bool.false_eq_true, if_false]
          exact ⟨_, round, frame⟩
      | true =>
          simp only [rebuildRounds, changed, if_true]
          obtain ⟨v, state, rest⟩ := ih (validityRound s).state
          change (validityRound s).state = _ at round
          rw [round] at state rest ⊢
          exact ⟨v, state, fun d absent => (rest d absent).trans (frame d absent)⟩

def PoliciesSettled (s : State) : Prop := ∀ p, .policy p ∈ s.log → s.valid p.dot = some (isValid s (.policy p))

theorem recheck_documents (rank : Dot → Nat) (s : State) (wired : Wired rank s) (linked : DocsLinked s)
    (settled : PoliciesSettled s) :
    (∀ d, IsPolicyDot s.log d → recheckAll s s.log s.valid d = s.valid d) ∧
      ∀ o ∈ s.log, recheckAll s s.log s.valid o.dot = some (isValid s o) := by
  have walk : ∀ after before v, s.log = before ++ after → (∀ d, IsPolicyDot s.log d → v d = s.valid d) →
      (∀ o ∈ before, v o.dot = some (isValid s o)) →
      (∀ d, IsPolicyDot s.log d → recheckAll s after v d = s.valid d) ∧
        ∀ o ∈ s.log, recheckAll s after v o.dot = some (isValid s o) := by
    intro after
    induction after with
    | nil =>
        intro before v split agree done
        rw [List.append_nil] at split
        exact ⟨agree, fun o oIn => done o (split ▸ oIn)⟩
    | cons o tail ih =>
        intro before v split agree done
        have oIn : o ∈ s.log := split ▸ (by simp)
        have value : isValid (s.withValid v) o = isValid s o :=
          is_valid_agree rank s wired v s.valid agree linked o oIn
        rw [recheckAll, List.foldl_cons, value]
        apply ih (before ++ [o])
        · rw [split, List.append_assoc, List.singleton_append]
        · rintro d ⟨p, pIn, rfl⟩
          by_cases hit : p.dot = o.dot
          · have same := same_dot_same_op s.log wired.nodup _ _ pIn oIn hit
            rw [hit, Function.update_self, ← same]
            exact (settled p pIn).symm
          · rw [Function.update_of_ne hit]
            exact agree p.dot ⟨p, pIn, rfl⟩
        · intro r rIn
          rcases List.mem_append.mp rIn with earlier | here
          · by_cases hit : r.dot = o.dot
            · have rLog : r ∈ s.log := split ▸ List.mem_append_left _ earlier
              have same := same_dot_same_op s.log wired.nodup _ _ rLog oIn hit
              rw [hit, Function.update_self, same]
            · rw [Function.update_of_ne hit]
              exact done r earlier
          · rw [List.mem_singleton.mp here, Function.update_self]
  exact walk s.log [] s.valid rfl (fun _ _ => rfl) (by simp)

theorem sweep_settles (rank : Dot → Nat) (s : State) (wired : Wired rank s) (linked : DocsLinked s)
    (settled : PoliciesSettled s) : AllSettled (sweep s) ∧ ∀ d, IsPolicyDot s.log d → (sweep s).valid d = s.valid d := by
  obtain ⟨kept, values⟩ := recheck_documents rank s wired linked settled
  rw [sweep_eq]
  refine ⟨?_, kept⟩
  intro o member
  rw [with_valid_valid, values o member]
  exact congrArg some (is_valid_agree rank s wired s.valid _ (fun d policy => (kept d policy).symm) linked o member)

end Accure
