import Accure.Arrival
import Accure.Run

set_option autoImplicit false

namespace Accure

def State.counter (s : State) : Nat := (s.nextN (s.me, .site)).getD 0

def State.allocated (s : State) : State := (s.allocN .site).2

def freshPolicy (s : State) (target : SiteId) (right : Right) (effect : Effect) : PolicyOp where
  dot := ⟨s.me, s.counter + 1⟩
  target := target
  right := right
  effect := effect
  deps := currentTopLevelDeps s ⟨target, right⟩
  lastDotSeen := lastDotForWriteTuple s target
  missingDots := deriveMissingDots s target (lastDotForWriteTuple s target)

def freshDocument (s : State) (edit : TextEdit) : DocOp where
  dot := ⟨s.me, s.counter + 1⟩
  deps := currentTopLevelDeps s ⟨s.me, .write⟩
  edit := edit

theorem guarded_ok {α β γ : Type} (may : Bool) (e : String) (fresh : α) (effect : α → β) (append : α → γ)
    (a : α) (b : β) (c : γ) :
    (if !may then .error e else .ok (fresh, effect fresh, append fresh) : Except String (α × β × γ)) = .ok (a, b, c) ↔
      may = true ∧ a = fresh ∧ b = effect a ∧ c = append a := by
  cases may with
  | false => simp
  | true =>
      simp only [Bool.not_true, Bool.false_eq_true, if_false, true_and, Except.ok.injEq, Prod.mk.injEq]
      constructor
      · rintro ⟨rfl, rfl, rfl⟩
        exact ⟨rfl, rfl, rfl⟩
      · rintro ⟨rfl, rfl, rfl⟩
        exact ⟨rfl, rfl, rfl⟩

theorem update_policy_ok (s next : State) (doc appended : Doc) (target : SiteId) (right : Right) (effect : Effect)
    (p : PolicyOp) : updatePolicy s doc target right effect = .ok (p, next, appended) ↔
      eval s s.me .admin = true ∧ p = freshPolicy s target right effect ∧ next = effectPolicy s.allocated p ∧
        appended = doc.append (.policy p) := by
  rw [updatePolicy]
  exact guarded_ok (eval s s.me .admin) _ (freshPolicy s target right effect) (effectPolicy s.allocated)
    (fun p => doc.append (.policy p)) p next appended

theorem update_document_ok (s next : State) (doc appended : Doc) (edit : TextEdit) (d : DocOp) :
    updateDocument s doc edit = .ok (d, next, appended) ↔
      eval s s.me .write = true ∧ d = freshDocument s edit ∧ next = effectDocument s.allocated d ∧
        appended = doc.append (.document d) := by
  rw [updateDocument]
  exact guarded_ok (eval s s.me .write) _ (freshDocument s edit) (effectDocument s.allocated)
    (fun d => doc.append (.document d)) d next appended

theorem update_policy_accepted (s : State) (doc : Doc) (target : SiteId) (right : Right) (effect : Effect)
    (may : eval s s.me .admin = true) : updatePolicy s doc target right effect =
      .ok (freshPolicy s target right effect, effectPolicy s.allocated (freshPolicy s target right effect),
        doc.append (.policy (freshPolicy s target right effect))) :=
  (update_policy_ok _ _ _ _ _ _ _ _).mpr ⟨may, rfl, rfl, rfl⟩

theorem update_document_accepted (s : State) (doc : Doc) (edit : TextEdit) (may : eval s s.me .write = true) :
    updateDocument s doc edit = .ok (freshDocument s edit, effectDocument s.allocated (freshDocument s edit),
      doc.append (.document (freshDocument s edit))) :=
  (update_document_ok _ _ _ _ _ _).mpr ⟨may, rfl, rfl, rfl⟩

@[simp] theorem allocated_me (s : State) : s.allocated.me = s.me := rfl

@[simp] theorem allocated_log (s : State) : s.allocated.log = s.log := rfl

@[simp] theorem allocated_strategy (s : State) : s.allocated.strategy = s.strategy := rfl

theorem allocated_counter (s : State) : s.allocated.counter = s.counter + 1 := by
  simp [State.counter, State.allocated, State.allocN]

theorem note_counter_own (s : State) (key : TupleKey) (n : Nat) (known : n ≤ s.counter) :
    (s.noteN s.me key n).counter = s.counter := by
  rw [State.counter] at known
  simp [State.counter, State.noteN, Nat.not_lt.mpr known]

theorem note_counter_other (s : State) (site : SiteId) (key : TupleKey) (n : Nat) (other : site ≠ s.me) :
    (s.noteN site key n).counter = s.counter := by
  have different : (s.me, TupleKey.site) ≠ (site, TupleKey.site) := fun same => other (congrArg Prod.fst same).symm
  simp [State.counter, State.noteN, Function.update_of_ne different]

-- The integration of an op of either kind.
def State.integrate (s : State) : Operation → State
  | .policy p => effectPolicy s p
  | .document d => effectDocument s d

theorem integrate_log (s : State) (o : Operation) : (s.integrate o).log = s.log ++ [o] := by
  cases o with
  | policy p => exact effect_policy_log s p
  | document d => exact effect_document_log s d

theorem integrate_me (s : State) (o : Operation) : (s.integrate o).me = s.me := by
  cases o with
  | policy p => exact effect_policy_me s p
  | document d => exact effect_document_me s d

theorem integrate_strategy (s : State) (o : Operation) : (s.integrate o).strategy = s.strategy := by
  cases o with
  | policy p => exact effect_policy_strategy s p
  | document d => exact effect_document_strategy s d

theorem integrate_noted (s : State) (o : Operation) :
    ∃ key, (s.integrate o).counter = (s.noteN o.dot.site key o.dot.n).counter := by
  cases o with
  | policy p =>
      refine ⟨.policy p.tuple, ?_⟩
      rw [State.integrate, State.counter, effect_policy_next, effect_policy_me]
      rfl
  | document d => exact ⟨.document d.dot.site, rfl⟩

theorem integrate_counter (s : State) (o : Operation) (known : o.dot.site = s.me → o.dot.n ≤ s.counter) :
    (s.integrate o).counter = s.counter := by
  obtain ⟨key, noted⟩ := integrate_noted s o
  rw [noted]
  by_cases own : o.dot.site = s.me
  · rw [own]
    exact note_counter_own s _ _ (known own)
  · exact note_counter_other s _ _ _ own

theorem fold_log (ops : List Operation) (s : State) : (ops.foldl State.integrate s).log = s.log ++ ops := by
  induction ops generalizing s with
  | nil => simp
  | cons o tail ih => rw [List.foldl_cons, ih, integrate_log, List.append_assoc, List.singleton_append]

theorem fold_me (ops : List Operation) (s : State) : (ops.foldl State.integrate s).me = s.me := by
  induction ops generalizing s with
  | nil => rfl
  | cons o tail ih => rw [List.foldl_cons, ih, integrate_me]

theorem fold_strategy (ops : List Operation) (s : State) : (ops.foldl State.integrate s).strategy = s.strategy := by
  induction ops generalizing s with
  | nil => rfl
  | cons o tail ih => rw [List.foldl_cons, ih, integrate_strategy]

theorem fold_counter (ops : List Operation) (s : State) (foreign : ∀ o ∈ ops, o.dot.site ≠ s.me) :
    (ops.foldl State.integrate s).counter = s.counter := by
  induction ops generalizing s with
  | nil => rfl
  | cons o tail ih =>
      have here := integrate_counter s o (fun own => absurd own (foreign o (by simp)))
      rw [List.foldl_cons, ih, here]
      intro x member
      rw [integrate_me]
      exact foreign x (by simp [member])

theorem fold_policies_log (rows : List PolicyOp) (s : State) :
    (rows.foldl effectPolicy s).log = s.log ++ rows.map .policy := by
  have log := fold_log (rows.map .policy) s
  rwa [List.foldl_map] at log

def newPolicies (s : State) (doc : Doc) : List PolicyOp :=
  doc.policyLog.filter (fun p => p.dot ∉ (s.log.filterMap Operation.asPolicy).map PolicyOp.dot)

def newDocuments (s : State) (doc : Doc) : List DocOp :=
  doc.docLog.filter (fun d => d.dot ∉ (s.log.filterMap Operation.asDocument).map DocOp.dot)

def integrated (s : State) (doc : Doc) : State :=
  (newDocuments s doc).foldl effectDocument ((newPolicies s doc).foldl effectPolicy s)

theorem integrated_eq (s : State) (doc : Doc) : integrated s doc =
    ((newPolicies s doc).map Operation.policy ++ (newDocuments s doc).map Operation.document).foldl State.integrate s := by
  rw [List.foldl_append, List.foldl_map, List.foldl_map]
  rfl

theorem integrated_log (s : State) (doc : Doc) :
    (integrated s doc).log = s.log ++ ((newPolicies s doc).map .policy ++ (newDocuments s doc).map .document) := by
  rw [integrated_eq, fold_log]

theorem integrated_me (s : State) (doc : Doc) : (integrated s doc).me = s.me := by
  rw [integrated_eq, fold_me]

theorem integrated_strategy (s : State) (doc : Doc) : (integrated s doc).strategy = s.strategy := by
  rw [integrated_eq, fold_strategy]

def Trace.asReceived : Trace → Option Operation
  | .received o => some o
  | _ => none

theorem receive_policies (prior : List Dot) (rows : List PolicyOp) (work : State × List Trace) :
    rows.foldl (receivePolicy prior) work =
      ((rows.filter (fun p => p.dot ∉ prior)).foldl effectPolicy work.1,
        work.2 ++ (rows.filter (fun p => p.dot ∉ prior)).map (fun p => .received (.policy p))) := by
  induction rows generalizing work with
  | nil => simp
  | cons p tail ih =>
      rw [List.foldl_cons, ih]
      by_cases seen : p.dot ∈ prior
      · simp [receivePolicy, seen]
      · simp [receivePolicy, seen]

theorem receive_documents (prior : List Dot) (rows : List DocOp) (work : State × List Trace) :
    rows.foldl (receiveDocument prior) work =
      ((rows.filter (fun d => d.dot ∉ prior)).foldl effectDocument work.1,
        work.2 ++ (rows.filter (fun d => d.dot ∉ prior)).map (fun d => .received (.document d))) := by
  induction rows generalizing work with
  | nil => simp
  | cons d tail ih =>
      rw [List.foldl_cons, ih]
      by_cases seen : d.dot ∈ prior
      · simp [receiveDocument, seen]
      · simp [receiveDocument, seen]

theorem rebuild_eq (s : State) (doc : Doc) : rebuildFromAutomerge s doc =
    ((rebuildValidity (integrated s doc)).1,
      (newPolicies s doc).map (fun p => .received (.policy p)) ++
        (newDocuments s doc).map (fun d => .received (.document d)) ++ (rebuildValidity (integrated s doc)).2) := by
  rw [rebuildFromAutomerge, receive_policies, receive_documents]
  simp only [List.nil_append]
  rfl

theorem recheck_received (round : Round) (o : Operation) :
    (recheck round o).traces.filterMap Trace.asReceived = round.traces.filterMap Trace.asReceived := by
  unfold recheck
  dsimp only
  split
  · rfl
  · cases o <;> simp [Trace.asReceived]

theorem rebuild_rounds_received (rounds : Nat) (s : State) :
    (rebuildRounds rounds s).2.1.filterMap Trace.asReceived = [] := by
  have round : ∀ (ops : List Operation) (start : Round), (ops.foldl recheck start).traces.filterMap Trace.asReceived =
      start.traces.filterMap Trace.asReceived := by
    intro ops
    induction ops with
    | nil => exact fun _ => rfl
    | cons o tail ih => exact fun start => (ih (recheck start o)).trans (recheck_received start o)
  induction rounds generalizing s with
  | zero => rfl
  | succ rounds ih =>
      rw [rebuildRounds]
      cases changed : (validityRound s).changed with
      | true =>
          rw [if_pos rfl, List.filterMap_append, ih, List.append_nil]
          exact round s.log ⟨s, [], false⟩
      | false =>
          rw [if_neg (by simp)]
          exact round s.log ⟨s, [], false⟩

theorem rebuild_received (s : State) (doc : Doc) : (rebuildFromAutomerge s doc).2.filterMap Trace.asReceived =
    (newPolicies s doc).map .policy ++ (newDocuments s doc).map .document := by
  rw [rebuild_eq, List.filterMap_append, rebuildValidity, rebuild_rounds_received, List.append_nil,
    List.filterMap_append, List.filterMap_map, List.filterMap_map]
  exact congrArg₂ (· ++ ·) (congrFun List.filterMap_eq_map' _) (congrFun List.filterMap_eq_map' _)

end Accure
