import Accure.Updates

set_option autoImplicit false

namespace Accure

-- A site's log mirrors its lists, its lists hold only generated ops, and what
-- a site generates is numbered in order.
structure Faithful (w : World) : Prop where
  me : ∀ i, (w.site i).state.me = i
  recorded : ∀ i, ∀ o ∈ (w.site i).doc.ops, o ∈ w.history
  once : ∀ i, (w.site i).doc.dots.Nodup
  logged : ∀ i, ∀ o ∈ (w.site i).state.log, o ∈ (w.site i).doc.ops
  distinct : ∀ i, ((w.site i).state.log.map Operation.dot).Nodup
  own : ∀ o ∈ w.history, o ∈ (w.site o.dot.site).state.log
  numbered : ∀ i, (((w.history.map Operation.dot).filter (fun d => d.site = i)).map Dot.n) =
    List.range' 1 (w.site i).state.counter

theorem rebuild_state (s : State) (doc : Doc) :
    ∃ v, (rebuildFromAutomerge s doc).1 = (integrated s doc).withValid v := by
  obtain ⟨v, frame, _⟩ := rebuild_frame (maxIters (integrated s doc)) (integrated s doc)
  rw [rebuild_eq]
  exact ⟨v, frame⟩

@[simp] theorem mem_policies (o : List Operation) (d : Dot) :
    d ∈ (o.filterMap Operation.asPolicy).map PolicyOp.dot ↔ ∃ p, .policy p ∈ o ∧ p.dot = d := by
  simp [List.mem_filterMap]

@[simp] theorem mem_documents (o : List Operation) (d : Dot) :
    d ∈ (o.filterMap Operation.asDocument).map DocOp.dot ↔ ∃ e, .document e ∈ o ∧ e.dot = d := by
  simp [List.mem_filterMap]

@[simp] theorem policy_mem_ops (doc : Doc) (p : PolicyOp) : .policy p ∈ doc.ops ↔ p ∈ doc.policyLog := by
  simp [Doc.ops]

@[simp] theorem document_mem_ops (doc : Doc) (d : DocOp) : .document d ∈ doc.ops ↔ d ∈ doc.docLog := by
  simp [Doc.ops]

section Rebuild

variable (s : State) (doc : Doc) (once : doc.dots.Nodup) (logged : ∀ o ∈ s.log, o ∈ doc.ops)

include once logged

theorem new_policies_iff (p : PolicyOp) (member : p ∈ doc.policyLog) :
    p.dot ∈ (s.log.filterMap Operation.asPolicy).map PolicyOp.dot ↔ .policy p ∈ s.log := by
  rw [mem_policies]
  constructor
  · rintro ⟨q, qIn, dot⟩
    have same := same_dot_same_op doc.ops once _ (.policy p) (logged _ qIn) ((policy_mem_ops doc p).mpr member) dot
    exact same ▸ qIn
  · exact fun pIn => ⟨p, pIn, rfl⟩

theorem new_documents_iff (d : DocOp) (member : d ∈ doc.docLog) :
    d.dot ∈ (s.log.filterMap Operation.asDocument).map DocOp.dot ↔ .document d ∈ s.log := by
  rw [mem_documents]
  constructor
  · rintro ⟨e, eIn, dot⟩
    have same := same_dot_same_op doc.ops once _ (.document d) (logged _ eIn) ((document_mem_ops doc d).mpr member) dot
    exact same ▸ eIn
  · exact fun dIn => ⟨d, dIn, rfl⟩

theorem received_eq :
    (newPolicies s doc).map .policy ++ (newDocuments s doc).map .document = doc.ops.filter (fun o => o ∉ s.log) := by
  have policies : newPolicies s doc = doc.policyLog.filter (fun p => .policy p ∉ s.log) := by
    apply List.filter_congr
    intro p member
    simp only [new_policies_iff s doc once logged p member]
  have documents : newDocuments s doc = doc.docLog.filter (fun d => .document d ∉ s.log) := by
    apply List.filter_congr
    intro d member
    simp only [new_documents_iff s doc once logged d member]
  rw [Doc.ops, List.filter_append, List.filter_map, List.filter_map, policies, documents]
  rfl

theorem rebuild_log : (rebuildFromAutomerge s doc).1.log = s.log ++ doc.ops.filter (fun o => o ∉ s.log) := by
  obtain ⟨v, state⟩ := rebuild_state s doc
  rw [state, with_valid_log, integrated_log, received_eq s doc once logged]

theorem rebuild_perm (distinct : (s.log.map Operation.dot).Nodup) :
    (rebuildFromAutomerge s doc).1.log.Perm doc.ops := by
  rw [rebuild_log s doc once logged]
  have opsNodup : doc.ops.Nodup := once.of_map
  apply (List.perm_ext_iff_of_nodup ?_ opsNodup).mpr
  · intro o
    rw [List.mem_append, List.mem_filter]
    constructor
    · rintro (old | new)
      · exact logged o old
      · exact new.1
    · intro member
      by_cases old : o ∈ s.log
      · exact Or.inl old
      · exact Or.inr ⟨member, by simp [old]⟩
  · rw [List.nodup_append]
    refine ⟨distinct.of_map, opsNodup.filter _, ?_⟩
    intro a old b new same
    subst same
    exact absurd old (by simpa using (List.mem_filter.mp new).2)

end Rebuild

theorem nodup_of_numbers (dots : List Dot)
    (each : ∀ i, ((dots.filter (fun d => d.site = i)).map Dot.n).Nodup) : dots.Nodup := by
  induction dots with
  | nil => exact List.nodup_nil
  | cons d tail ih =>
      rw [List.nodup_cons]
      constructor
      · intro member
        have numbers := each d.site
        simp only [List.filter_cons, decide_true, if_true, List.map_cons, List.nodup_cons] at numbers
        exact numbers.1 (List.mem_map_of_mem (List.mem_filter.mpr ⟨member, by simp⟩))
      · apply ih
        intro i
        exact (each i).sublist (((List.sublist_cons_self d tail).filter _).map _)

section Dots

variable (w : World) (faithful : Faithful w)

include faithful

theorem history_distinct : (w.history.map Operation.dot).Nodup := by
  apply nodup_of_numbers
  intro i
  rw [faithful.numbered i]
  exact List.nodup_range'

theorem history_bound (o : Operation) (member : o ∈ w.history) : o.dot.n ≤ (w.site o.dot.site).state.counter := by
  have number : o.dot.n ∈ List.range' 1 (w.site o.dot.site).state.counter := by
    rw [← faithful.numbered o.dot.site]
    exact List.mem_map_of_mem (List.mem_filter.mpr ⟨List.mem_map_of_mem member, by simp⟩)
  rw [List.mem_range'_1] at number
  omega

theorem fresh_dot (i : SiteId) (o : Operation) (member : o ∈ w.history) :
    o.dot ≠ ⟨i, (w.site i).state.counter + 1⟩ := by
  intro same
  have bound := history_bound w faithful o member
  rw [same] at bound
  simp at bound

theorem log_recorded (i : SiteId) (o : Operation) (member : o ∈ (w.site i).state.log) : o ∈ w.history :=
  faithful.recorded i o (faithful.logged i o member)

theorem received_foreign (i : SiteId) (o : Operation) (member : o ∈ (w.site i).doc.ops) (new : o ∉ (w.site i).state.log) :
    o.dot.site ≠ (w.site i).state.me := by
  intro same
  rw [faithful.me i] at same
  have mine := faithful.own o (faithful.recorded i o member)
  rw [same] at mine
  exact new mine

theorem faithful_generate (i : SiteId) (o : Operation) (s : State)
    (dot : o.dot = ⟨i, (w.site i).state.counter + 1⟩) (me : s.me = i) (log : s.log = (w.site i).state.log ++ [o])
    (counter : s.counter = (w.site i).state.counter + 1) :
    Faithful (w.generate i o ⟨s, (w.site i).doc.append o⟩) := by
  have perm : ((w.site i).doc.append o).dots.Perm (((w.site i).doc.ops ++ [o]).map Operation.dot) := by
    cases o with
    | policy p =>
        simp only [Doc.append, Doc.dots, Doc.ops, List.map_append, List.map_cons, List.map_nil, List.append_assoc]
        exact List.Perm.append_left _ List.perm_append_comm
    | document d =>
        simp [Doc.append, Doc.dots, Doc.ops]
  have fresh : ∀ x ∈ w.history, x.dot ≠ o.dot := fun x member => dot ▸ fresh_dot w faithful i x member
  have each := generate_each w i o ⟨s, (w.site i).doc.append o⟩
  constructor
  · exact each (fun j site => site.state.me = j) me (fun j _ => faithful.me j)
  · refine each (fun _ site => ∀ x ∈ site.doc.ops, x ∈ w.history ++ [o]) ?_ ?_
    · intro x member
      rw [List.mem_append, List.mem_singleton]
      exact ((mem_doc_append _ o x).mp member).imp_left (faithful.recorded i x)
    · exact fun j _ x member => List.mem_append_left _ (faithful.recorded j x member)
  · refine each (fun _ site => site.doc.dots.Nodup) ?_ (fun j _ => faithful.once j)
    apply perm.nodup_iff.mpr
    exact dots_append_nodup Operation.dot _ o (faithful.once i) (fun x member => fresh x (faithful.recorded i x member))
  · refine each (fun _ site => ∀ x ∈ site.state.log, x ∈ site.doc.ops) ?_ (fun j _ => faithful.logged j)
    intro x member
    rw [log, List.mem_append, List.mem_singleton] at member
    exact (mem_doc_append _ o x).mpr (member.imp_left (faithful.logged i x))
  · refine each (fun _ site => (site.state.log.map Operation.dot).Nodup) ?_ (fun j _ => faithful.distinct j)
    rw [log]
    exact dots_append_nodup Operation.dot _ o (faithful.distinct i) (fun x member => fresh x (log_recorded w faithful i x member))
  · have own := each (fun j site => ∀ x ∈ w.history ++ [o], x.dot.site = j → x ∈ site.state.log) ?_ ?_
    · exact fun x member => own x.dot.site x member rfl
    · intro x member emitter
      rw [log]
      rcases List.mem_append.mp member with old | new
      · exact List.mem_append_left _ (emitter ▸ faithful.own x old)
      · exact List.mem_append_right _ new
    · intro j other x member emitter
      rcases List.mem_append.mp member with old | new
      · exact emitter ▸ faithful.own x old
      · rw [List.mem_singleton.mp new, dot] at emitter
        exact absurd emitter.symm other
  · refine each (fun j site => ((((w.history ++ [o]).map Operation.dot).filter (fun d => d.site = j)).map Dot.n) =
      List.range' 1 site.state.counter) ?_ ?_
    · rw [List.map_append, List.filter_append, List.map_append, faithful.numbered i, List.map_singleton, dot, counter,
        List.range'_1_concat]
      simp [Nat.add_comm]
    · intro j other
      rw [List.map_append, List.filter_append, List.map_append, faithful.numbered j, List.map_singleton, dot]
      simp [Ne.symm other]

theorem faithful_sync (rule : SyncRule) (delivers : ∀ own other merged, rule w own other merged → Delivered w own other merged)
    (i j : SiteId) (merged : Doc) (sync : rule w (w.site i).doc (w.site j).doc merged) :
    Faithful (w.put i ⟨(w.site i).state, merged⟩) := by
  have delivered := delivers _ _ _ sync
  have each := put_each w i ⟨(w.site i).state, merged⟩
  constructor
  · exact each (fun k site => site.state.me = k) (faithful.me i) (fun k _ => faithful.me k)
  · refine each (fun _ site => ∀ o ∈ site.doc.ops, o ∈ w.history) ?_ (fun k _ => faithful.recorded k)
    intro o member
    exact (delivered.known o member).elim (faithful.recorded i o) (faithful.recorded j o)
  · exact each (fun _ site => site.doc.dots.Nodup) delivered.once (fun k _ => faithful.once k)
  · refine each (fun _ site => ∀ o ∈ site.state.log, o ∈ site.doc.ops) ?_ (fun k _ => faithful.logged k)
    exact fun o member => delivered.kept o (faithful.logged i o member)
  · exact each (fun _ site => (site.state.log.map Operation.dot).Nodup) (faithful.distinct i) (fun k _ => faithful.distinct k)
  · intro o member
    refine each (fun k site => o.dot.site = k → o ∈ site.state.log) ?_ ?_ o.dot.site rfl
    · exact fun emitter => emitter ▸ faithful.own o member
    · exact fun k _ emitter => emitter ▸ faithful.own o member
  · exact each (fun k site => ((w.history.map Operation.dot).filter (fun d => d.site = k)).map Dot.n =
      List.range' 1 site.state.counter) (faithful.numbered i) (fun k _ => faithful.numbered k)

theorem rebuild_counter (i : SiteId) :
    (rebuildFromAutomerge (w.site i).state (w.site i).doc).1.counter = (w.site i).state.counter := by
  obtain ⟨v, state⟩ := rebuild_state (w.site i).state (w.site i).doc
  have same : ((integrated (w.site i).state (w.site i).doc).withValid v).counter =
    (integrated (w.site i).state (w.site i).doc).counter := rfl
  have received := received_eq (w.site i).state (w.site i).doc (faithful.once i) (faithful.logged i)
  have foreign : ∀ o ∈ (newPolicies (w.site i).state (w.site i).doc).map Operation.policy ++
      (newDocuments (w.site i).state (w.site i).doc).map Operation.document, o.dot.site ≠ (w.site i).state.me := by
    intro o member
    rw [received, List.mem_filter] at member
    exact received_foreign w faithful i o member.1 (by simpa using member.2)
  rw [state, same, integrated_eq]
  exact fold_counter _ _ foreign

theorem faithful_rebuild (i : SiteId) :
    Faithful (w.put i ⟨(rebuildFromAutomerge (w.site i).state (w.site i).doc).1, (w.site i).doc⟩) := by
  obtain ⟨v, state⟩ := rebuild_state (w.site i).state (w.site i).doc
  have log := rebuild_perm (w.site i).state (w.site i).doc (faithful.once i) (faithful.logged i) (faithful.distinct i)
  have counter := rebuild_counter w faithful i
  have me : (rebuildFromAutomerge (w.site i).state (w.site i).doc).1.me = i := by
    rw [state]
    exact (integrated_me _ _).trans (faithful.me i)
  generalize (rebuildFromAutomerge (w.site i).state (w.site i).doc).1 = s at log counter me ⊢
  have each := put_each w i ⟨s, (w.site i).doc⟩
  constructor
  · exact each (fun k site => site.state.me = k) me (fun k _ => faithful.me k)
  · exact each (fun _ site => ∀ o ∈ site.doc.ops, o ∈ w.history) (faithful.recorded i) (fun k _ => faithful.recorded k)
  · exact each (fun _ site => site.doc.dots.Nodup) (faithful.once i) (fun k _ => faithful.once k)
  · refine each (fun _ site => ∀ o ∈ site.state.log, o ∈ site.doc.ops) ?_ (fun k _ => faithful.logged k)
    exact fun o member => log.mem_iff.mp member
  · refine each (fun _ site => (site.state.log.map Operation.dot).Nodup) ?_ (fun k _ => faithful.distinct k)
    exact (log.map Operation.dot).nodup_iff.mpr (faithful.once i)
  · intro o member
    refine each (fun k site => o.dot.site = k → o ∈ site.state.log) ?_ ?_ o.dot.site rfl
    · intro emitter
      exact log.mem_iff.mpr (faithful.logged i o (emitter ▸ faithful.own o member))
    · exact fun k _ emitter => emitter ▸ faithful.own o member
  · refine each (fun k site => ((w.history.map Operation.dot).filter (fun d => d.site = k)).map Dot.n =
      List.range' 1 site.state.counter) ?_ (fun k _ => faithful.numbered k)
    rw [counter]
    exact faithful.numbered i

end Dots

theorem faithful_init (strategies : SiteId → Strategy) : Faithful (World.init strategies) := by
  constructor
  · exact fun _ => rfl
  · exact fun i o member => absurd member (by simp [World.init, Site.start, newStateFromBytes, newSharedDoc, Doc.ops])
  · exact fun i => List.nodup_nil
  · exact fun i o member => absurd member List.not_mem_nil
  · exact fun i => List.nodup_nil
  · exact fun o member => absurd member List.not_mem_nil
  · exact fun i => rfl

theorem faithful_step (rule : SyncRule)
    (delivers : ∀ w own other merged, rule w own other merged → Delivered w own other merged)
    (w next : World) (faithful : Faithful w) (step : Step rule w next) : Faithful next := by
  cases step with
  | updatePolicy i target right effect p s doc ok =>
      obtain ⟨_, rfl, rfl, rfl⟩ := (update_policy_ok _ _ _ _ _ _ _ _).mp ok
      have dot : (Operation.policy (freshPolicy (w.site i).state target right effect)).dot = ⟨i, (w.site i).state.counter + 1⟩ := by
        rw [dot_policy, freshPolicy, faithful.me i]
      apply faithful_generate w faithful i _ _ dot
      · rw [effect_policy_me, allocated_me, faithful.me i]
      · rw [effect_policy_log, allocated_log]
      · refine (integrate_counter _ (.policy _) ?_).trans (allocated_counter _)
        intro _
        rw [allocated_counter]
        exact Nat.le_refl _
  | updateDocument i edit d s doc ok =>
      obtain ⟨_, rfl, rfl, rfl⟩ := (update_document_ok _ _ _ _ _ _).mp ok
      have dot : (Operation.document (freshDocument (w.site i).state edit)).dot = ⟨i, (w.site i).state.counter + 1⟩ := by
        rw [dot_document, freshDocument, faithful.me i]
      apply faithful_generate w faithful i _ _ dot
      · rw [effect_document_me, allocated_me, faithful.me i]
      · rw [effect_document_log, allocated_log]
      · refine (integrate_counter _ (.document _) ?_).trans (allocated_counter _)
        intro _
        rw [allocated_counter]
        exact Nat.le_refl _
  | sync i j merged delivered => exact faithful_sync w faithful rule (delivers w) i j merged delivered
  | rebuild i => exact faithful_rebuild w faithful i

theorem faithful_run (rule : SyncRule)
    (delivers : ∀ w own other merged, rule w own other merged → Delivered w own other merged)
    (strategies : SiteId → Strategy) (w : World) (run : Reachable rule strategies w) : Faithful w :=
  reachable_invariant rule strategies Faithful (faithful_init strategies) (faithful_step rule delivers) w run

end Accure
