import Accure.Coverage

set_option autoImplicit false

namespace Accure

-- A run together with what each op's author had in its log when it generated it.
inductive Observed (rule : SyncRule) (strategies : SiteId → Strategy) : World → (Dot → List Operation) → Prop where
  | init : Observed rule strategies (World.init strategies) (fun _ => [])
  | generate (w : World) (knew : Dot → List Operation) (i : SiteId) (o : Operation) (site : Site)
      (before : Observed rule strategies w knew) (step : Step rule w (w.generate i o site)) :
      Observed rule strategies (w.generate i o site) (Function.update knew o.dot (w.site o.dot.site).state.log)
  | put (w : World) (knew : Dot → List Operation) (i : SiteId) (site : Site) (before : Observed rule strategies w knew)
      (step : Step rule w (w.put i site)) : Observed rule strategies (w.put i site) knew

theorem observed_exists (rule : SyncRule) (strategies : SiteId → Strategy) (w : World) (run : Reachable rule strategies w) :
    ∃ knew, Observed rule strategies w knew := by
  induction run with
  | init => exact ⟨_, .init⟩
  | step w next _ step ih =>
      obtain ⟨knew, before⟩ := ih
      cases step with
      | updatePolicy i target right effect p s doc ok =>
          exact ⟨_, .generate w knew i _ _ before (.updatePolicy w i target right effect p s doc ok)⟩
      | updateDocument i edit d s doc ok => exact ⟨_, .generate w knew i _ _ before (.updateDocument w i edit d s doc ok)⟩
      | sync i j merged delivered => exact ⟨_, .put w knew i _ before (.sync w i j merged delivered)⟩
      | rebuild i => exact ⟨_, .put w knew i _ before (.rebuild w i)⟩

def SiteClosed (history ops : List Operation) : Prop :=
  ∀ x ∈ ops, ∀ y ∈ history, y.dot.site = x.dot.site → y.dot.n ≤ x.dot.n → y ∈ ops

structure Successive (w : World) : Prop where
  held : ∀ x ∈ w.history, ∀ y ∈ w.history, y.dot.site = x.dot.site → y.dot.n < x.dot.n → y.dot ∈ w.held x.dot
  listed : ∀ i, SiteClosed w.history (w.site i).doc.ops
  logged : ∀ i, SiteClosed w.history (w.site i).state.log

section Step

variable (w : World) (faithful : Faithful w) (successive : Successive w)

include faithful

theorem fresh_number (i : SiteId) (o : Operation) (dot : o.dot = ⟨i, (w.site i).state.counter + 1⟩) (x : Operation)
    (member : x ∈ w.history) (site : x.dot.site = o.dot.site) : x.dot.n < o.dot.n := by
  have bound := history_bound w faithful x member
  rw [site] at bound
  rw [dot] at bound ⊢
  exact Nat.lt_succ_of_le bound

theorem site_closed_grows (i : SiteId) (o : Operation) (dot : o.dot = ⟨i, (w.site i).state.counter + 1⟩)
    (ops : List Operation) (recorded : ∀ x ∈ ops, x ∈ w.history) (closed : SiteClosed w.history ops) :
    SiteClosed (w.history ++ [o]) ops := by
  intro x xIn y member site earlier
  rcases List.mem_append.mp member with old | new
  · exact closed x xIn y old site earlier
  · have same := List.mem_singleton.mp new
    rw [same] at site earlier
    have later := fresh_number w faithful i o dot x (recorded x xIn) site.symm
    omega

theorem site_closed_extended (i : SiteId) (o : Operation) (dot : o.dot = ⟨i, (w.site i).state.counter + 1⟩)
    (ops next : List Operation) (recorded : ∀ x ∈ ops, x ∈ w.history) (closed : SiteClosed w.history ops)
    (log : ∀ x ∈ (w.site i).state.log, x ∈ ops) (extends_ : ∀ x, x ∈ next ↔ x ∈ ops ∨ x = o) :
    SiteClosed (w.history ++ [o]) next := by
  intro x xIn y member site earlier
  rcases (extends_ x).mp xIn with old | rfl
  · exact (extends_ y).mpr (Or.inl (site_closed_grows w faithful i o dot ops recorded closed x old y member site earlier))
  · rcases List.mem_append.mp member with yOld | new
    · have emitter : y.dot.site = i := by rw [site, dot]
      exact (extends_ y).mpr (Or.inl (log y (emitter ▸ faithful.own y yOld)))
    · exact (extends_ y).mpr (Or.inr (List.mem_singleton.mp new))

include successive

theorem successive_generate (i : SiteId) (o : Operation) (s : State)
    (dot : o.dot = ⟨i, (w.site i).state.counter + 1⟩) (log : s.log = (w.site i).state.log ++ [o]) :
    Successive (w.generate i o ⟨s, (w.site i).doc.append o⟩) := by
  have fresh : ∀ x ∈ w.history, x.dot ≠ o.dot := fun x member => dot ▸ fresh_dot w faithful i x member
  have each := generate_each w i o ⟨s, (w.site i).doc.append o⟩
  refine ⟨?_, ?_, ?_⟩
  · intro x xIn y yIn site earlier
    rcases List.mem_append.mp xIn with xOld | xNew
    · rw [held_old w i o fresh _ x xOld]
      rcases List.mem_append.mp yIn with yOld | yNew
      · exact successive.held x xOld y yOld site earlier
      · rw [List.mem_singleton.mp yNew] at site earlier
        have later := fresh_number w faithful i o dot x xOld site.symm
        omega
    · cases List.mem_singleton.mp xNew
      rw [held_new]
      rcases List.mem_append.mp yIn with yOld | yNew
      · have emitter : y.dot.site = i := by rw [site, dot]
        exact List.mem_map_of_mem (faithful.logged i y (emitter ▸ faithful.own y yOld))
      · rw [List.mem_singleton.mp yNew] at earlier
        exact absurd earlier (Nat.lt_irrefl _)
  · refine each (fun _ site => SiteClosed (w.history ++ [o]) site.doc.ops) ?_ ?_
    · exact site_closed_extended w faithful i o dot _ _ (faithful.recorded i) (successive.listed i) (faithful.logged i)
        (mem_doc_append _ o)
    · exact fun j _ => site_closed_grows w faithful i o dot _ (faithful.recorded j) (successive.listed j)
  · refine each (fun _ site => SiteClosed (w.history ++ [o]) site.state.log) ?_ ?_
    · apply site_closed_extended w faithful i o dot _ _ (log_recorded w faithful i) (successive.logged i) (fun _ member => member)
      intro x
      rw [log, List.mem_append, List.mem_singleton]
    · exact fun j _ => site_closed_grows w faithful i o dot _ (log_recorded w faithful j) (successive.logged j)

theorem successive_sync (i j : SiteId) (merged : Doc) (sync : CausalSync w (w.site i).doc (w.site j).doc merged) :
    Successive (w.put i ⟨(w.site i).state, merged⟩) := by
  have each := put_each w i ⟨(w.site i).state, merged⟩
  refine ⟨successive.held, ?_, ?_⟩
  · refine each (fun _ site => SiteClosed w.history site.doc.ops) ?_ (fun k _ => successive.listed k)
    intro x xIn y member site earlier
    have recorded : ∀ z ∈ merged.ops, z ∈ w.history :=
      fun z zIn => (sync.known z zIn).elim (faithful.recorded i z) (faithful.recorded j z)
    rcases Nat.lt_or_eq_of_le earlier with less | same
    · obtain ⟨z, zIn, dot⟩ := List.mem_map.mp (sync.causal x xIn _ (successive.held x (recorded x xIn) y member site less))
      exact same_dot_same_op w.history (history_distinct w faithful) z y (recorded z zIn) member dot ▸ zIn
    · have dot : y.dot = x.dot := by
        rw [Dot.mk.injEq]
        exact ⟨site, same⟩
      exact same_dot_same_op w.history (history_distinct w faithful) y x member (recorded x xIn) dot ▸ xIn
  · exact each (fun _ site => SiteClosed w.history site.state.log) (successive.logged i) (fun k _ => successive.logged k)

theorem successive_rebuild (i : SiteId) :
    Successive (w.put i ⟨(rebuildFromAutomerge (w.site i).state (w.site i).doc).1, (w.site i).doc⟩) := by
  have each := put_each w i ⟨(rebuildFromAutomerge (w.site i).state (w.site i).doc).1, (w.site i).doc⟩
  have log := rebuild_perm (w.site i).state (w.site i).doc (faithful.once i) (faithful.logged i) (faithful.distinct i)
  refine ⟨successive.held, ?_, ?_⟩
  · exact each (fun _ site => SiteClosed w.history site.doc.ops) (successive.listed i) (fun k _ => successive.listed k)
  · refine each (fun _ site => SiteClosed w.history site.state.log) ?_ (fun k _ => successive.logged k)
    intro x xIn y member site earlier
    exact log.mem_iff.mpr (successive.listed i x (log.mem_iff.mp xIn) y member site earlier)

theorem successive_step (next : World) (step : Step CausalSync w next) : Successive next := by
  cases step with
  | updatePolicy i target right effect p s doc ok =>
      obtain ⟨_, rfl, rfl, rfl⟩ := (update_policy_ok _ _ _ _ _ _ _ _).mp ok
      apply successive_generate w faithful successive i (.policy _)
      · rw [dot_policy, freshPolicy, faithful.me i]
      · rw [effect_policy_log, allocated_log]
  | updateDocument i edit d s doc ok =>
      obtain ⟨_, rfl, rfl, rfl⟩ := (update_document_ok _ _ _ _ _ _).mp ok
      apply successive_generate w faithful successive i (.document _)
      · rw [dot_document, freshDocument, faithful.me i]
      · rw [effect_document_log, allocated_log]
  | sync i j merged sync => exact successive_sync w faithful successive i j merged sync
  | rebuild i => exact successive_rebuild w faithful successive i

end Step

theorem successive_init (strategies : SiteId → Strategy) : Successive (World.init strategies) := by
  refine ⟨fun x member => absurd member List.not_mem_nil, ?_, fun i x member => absurd member List.not_mem_nil⟩
  intro i x member
  exact absurd member (by simp [World.init, Site.start, newStateFromBytes, newSharedDoc, Doc.ops])

theorem generated_op (rule : SyncRule) (w : World) (faithful : Faithful w) (i : SiteId) (o : Operation) (site : Site)
    (step : Step rule w (w.generate i o site)) : o.dot = ⟨o.dot.site, (w.site o.dot.site).state.counter + 1⟩ ∧
      ∀ p, o = .policy p → ∃ target right effect, p = freshPolicy (w.site o.dot.site).state target right effect := by
  have appended : ∀ next, w.generate i o site = next → next.history = w.history ++ [o] := by
    rintro _ rfl
    rfl
  generalize value : w.generate i o site = next at step
  have grown := appended next value
  cases step with
  | updatePolicy j target right effect p s doc ok =>
      obtain ⟨_, rfl, _, _⟩ := (update_policy_ok _ _ _ _ _ _ _ _).mp ok
      have same : Operation.policy (freshPolicy (w.site j).state target right effect) = o :=
        List.singleton_inj.mp (List.append_cancel_left grown)
      have author : o.dot.site = j := by rw [← same, dot_policy, freshPolicy, faithful.me j]
      rw [author, ← same]
      refine ⟨by rw [dot_policy, freshPolicy, faithful.me j], ?_⟩
      intro p equal
      exact ⟨target, right, effect, (Operation.policy.inj equal).symm⟩
  | updateDocument j edit d s doc ok =>
      obtain ⟨_, rfl, _, _⟩ := (update_document_ok _ _ _ _ _ _).mp ok
      have same : Operation.document (freshDocument (w.site j).state edit) = o :=
        List.singleton_inj.mp (List.append_cancel_left grown)
      have author : o.dot.site = j := by rw [← same, dot_document, freshDocument, faithful.me j]
      rw [author, ← same]
      exact ⟨by rw [dot_document, freshDocument, faithful.me j], fun p impossible => by cases impossible⟩
  | sync j k merged delivered => exact absurd (List.self_eq_append_right.mp grown) (List.cons_ne_nil _ _)
  | rebuild j => exact absurd (List.self_eq_append_right.mp grown) (List.cons_ne_nil _ _)

structure Told (w : World) (knew : Dot → List Operation) : Prop where
  recorded : ∀ o ∈ w.history, ∀ x ∈ knew o.dot, x ∈ w.history
  closed : ∀ o ∈ w.history, SiteClosed w.history (knew o.dot)
  seen : ∀ p, .policy p ∈ w.history → ∃ s : State, s.log = knew p.dot ∧ p.lastDotSeen = lastDotForWriteTuple s p.target ∧
    p.missingDots = deriveMissingDots s p.target p.lastDotSeen

theorem told_generate (rule : SyncRule) (w : World) (faithful : Faithful w) (successive : Successive w)
    (knew : Dot → List Operation) (told : Told w knew) (i : SiteId) (o : Operation) (site : Site)
    (step : Step rule w (w.generate i o site)) :
    Told (w.generate i o site) (Function.update knew o.dot (w.site o.dot.site).state.log) := by
  obtain ⟨dot, policy⟩ := generated_op rule w faithful i o site step
  have old : ∀ x ∈ w.history, Function.update knew o.dot (w.site o.dot.site).state.log x.dot = knew x.dot := by
    intro x member
    exact Function.update_of_ne (dot ▸ fresh_dot w faithful o.dot.site x member) _ _
  have new : Function.update knew o.dot (w.site o.dot.site).state.log o.dot = (w.site o.dot.site).state.log :=
    Function.update_self _ _ _
  refine ⟨?_, ?_, ?_⟩
  · intro x member y known
    rcases List.mem_append.mp member with earlier | here
    · rw [old x earlier] at known
      exact List.mem_append_left _ (told.recorded x earlier y known)
    · rw [List.mem_singleton.mp here, new] at known
      exact List.mem_append_left _ (log_recorded w faithful _ y known)
  · intro x member
    rcases List.mem_append.mp member with earlier | here
    · rw [old x earlier]
      exact site_closed_grows w faithful _ o dot _ (told.recorded x earlier) (told.closed x earlier)
    · rw [List.mem_singleton.mp here, new]
      exact site_closed_grows w faithful _ o dot _ (log_recorded w faithful _) (successive.logged _)
  · intro p member
    rcases List.mem_append.mp member with earlier | here
    · have same := old (.policy p) earlier
      rw [dot_policy] at same
      rw [same]
      exact told.seen p earlier
    · have same := List.mem_singleton.mp here
      obtain ⟨target, right, effect, fresh⟩ := policy p same.symm
      subst same
      rw [dot_policy] at new fresh ⊢
      generalize (w.site p.dot.site).state = s at new fresh ⊢
      exact ⟨s, new.symm, by rw [fresh]; rfl, by rw [fresh]; rfl⟩

theorem observed_told (strategies : SiteId → Strategy) (w : World) (knew : Dot → List Operation)
    (observed : Observed CausalSync strategies w knew) : Faithful w ∧ Successive w ∧ Told w knew := by
  have delivers : ∀ w own other merged, CausalSync w own other merged → Delivered w own other merged :=
    fun _ _ _ _ sync => sync.toDelivered
  induction observed with
  | init =>
      exact ⟨faithful_init _, successive_init _, fun o member => absurd member List.not_mem_nil,
        fun o member => absurd member List.not_mem_nil, fun p member => absurd member List.not_mem_nil⟩
  | generate w knew i o site _ step ih =>
      obtain ⟨faithful, successive, told⟩ := ih
      exact ⟨faithful_step CausalSync delivers w _ faithful step, successive_step w faithful successive _ step,
        told_generate CausalSync w faithful successive knew told i o site step⟩
  | put w knew i site _ step ih =>
      obtain ⟨faithful, successive, told⟩ := ih
      exact ⟨faithful_step CausalSync delivers w _ faithful step, successive_step w faithful successive _ step,
        ⟨told.recorded, told.closed, told.seen⟩⟩

theorem covers_iff_known (w : World) (knew : Dot → List Operation) (told : Told w knew) (p : PolicyOp) (d : DocOp)
    (pIn : .policy p ∈ w.history) (dIn : .document d ∈ w.history) (target : d.dot.site = p.target)
    (allow : p.effect = .allow) : covers p d.dot = true ↔ .document d ∈ knew p.dot := by
  obtain ⟨s, log, last, missing⟩ := told.seen p pIn
  have below : ∀ l, p.lastDotSeen = some l → d.dot.n ≤ l.n → .document d ∈ knew p.dot := by
    intro l seen bound
    obtain ⟨e, eIn, site, rfl⟩ := last_dot_some s p.target l (last.symm.trans seen)
    exact told.closed _ pIn (.document e) (log ▸ eIn) (.document d) dIn (target.trans site.symm) bound
  constructor
  · intro covered
    rw [covers] at covered
    split at covered
    · next absent =>
        obtain ⟨m, member, same⟩ := List.any_eq_true.mp absent
        rw [missing] at member
        obtain ⟨l, seen, _, less⟩ := missing_below s p.target _ m member
        have equal : m = d.dot := by simpa using same
        rw [equal] at less
        exact below l seen less.le
    · cases seen : p.lastDotSeen with
      | none => simp [seen, allow] at covered
      | some l =>
          by_cases reaches : l.site = d.dot.site ∧ d.dot.n ≤ l.n
          · exact below l seen reaches.2
          · by_cases site : l.site = d.dot.site
            · have short : ¬ d.dot.n ≤ l.n := fun bound => reaches ⟨site, bound⟩
              simp [seen, allow, site, short] at covered
            · simp [seen, allow, site] at covered
  · intro known
    obtain ⟨l, seen, site, bound⟩ := last_dot_bound s p.target d (log.symm ▸ known) target
    rw [covers, last.trans seen]
    split
    · rfl
    · simp [site, target, bound]

-- The valid denies on a document op's emitter, and the valid allows whose
-- authors had the op.
def Deciding (s : State) (knew : Dot → List Operation) (d : DocOp) (p : PolicyOp) : Prop :=
  Valid s d.tuple p ∧ (p.effect = .deny ∨ p.effect = .allow ∧ .document d ∈ knew p.dot)

def TopDeciding (s : State) (knew : Dot → List Operation) (d : DocOp) (p : PolicyOp) : Prop :=
  Deciding s knew d p ∧ ∀ q, Deciding s knew d q → (s.dagAt d.tuple).level q.dot ≤ (s.dagAt d.tuple).level p.dot

section Reading

variable (rank : Dot → Nat) (s : State) (sound : Sound rank s) (knew : Dot → List Operation) (d : DocOp)
variable (known : ∀ p, .policy p ∈ s.log → p.tuple = d.tuple → p.effect = .allow →
  (covers p d.dot = true ↔ .document d ∈ knew p.dot))

include known

theorem covering_iff_deciding (p : PolicyOp) : Candidate s d.tuple (fun p => covers p d.dot) p ↔ Deciding s knew d p := by
  constructor
  · rintro ⟨logged, tuple, valid, considered⟩
    refine ⟨⟨logged, tuple, valid⟩, ?_⟩
    cases effect : p.effect with
    | deny => exact Or.inl rfl
    | allow => exact Or.inr ⟨rfl, (known p logged tuple effect).mp considered⟩
  · rintro ⟨⟨logged, tuple, valid⟩, deny | ⟨allow, had⟩⟩
    · exact ⟨logged, tuple, valid, deny_covers p d.dot deny⟩
    · exact ⟨logged, tuple, valid, (known p logged tuple allow).mpr had⟩

include sound

omit known in
theorem deciding_levels (p q : PolicyOp) (pIn : Deciding s knew d p) (qIn : Deciding s knew d q) :
    (s.dagAt d.tuple).level q.dot ≤ (s.dagAt d.tuple).level p.dot ↔ rank q.dot ≤ rank p.dot := by
  rw [valid_level rank s sound d.tuple p pIn.1, valid_level rank s sound d.tuple q qIn.1]

-- Valid opposite ops are never of one level, so the loop's end speaks for its level.
theorem deepest_allows_iff : allowedBy (deepest s (s.dagAt d.tuple) (fun p => covers p d.dot)) = true ↔
    (∀ p, ¬ Deciding s knew d p) ∨ ∀ p, TopDeciding s knew d p → p.effect = .allow := by
  have candidate := covering_iff_deciding s knew d known
  cases chosen : deepest s (s.dagAt d.tuple) (fun p => covers p d.dot) with
  | none =>
      have nobody := deepest_none rank s sound.toConsistent d.tuple (fun p => covers p d.dot) chosen
      exact ⟨fun _ => Or.inl (fun p deciding => nobody p ((candidate p).mpr deciding)), fun _ => rfl⟩
  | some best =>
      obtain ⟨lvl, q⟩ := best
      obtain ⟨qCandidate, highest, _⟩ := deepest_chosen rank s sound.toConsistent d.tuple _ lvl q chosen
      have qIn := (candidate q).mp qCandidate
      have top : ∀ r, Deciding s knew d r → rank r.dot ≤ rank q.dot := fun r rIn => highest r ((candidate r).mpr rIn)
      rw [allowedBy, decide_eq_true_eq]
      constructor
      · intro allow
        refine Or.inr fun p pTop => ?_
        by_contra opposed
        have above := (deciding_levels rank s sound knew d p q pTop.1 qIn).mp (pTop.2 q qIn)
        have below := top p pTop.1
        rcases opposites_ordered rank s sound d.tuple q p qIn.1 pTop.1.1 (allow ▸ opposed) with before | after
        · have less := before_rank rank s sound d.tuple _ _ before
          omega
        · have less := before_rank rank s sound d.tuple _ _ after
          omega
      · rintro (nobody | allow)
        · exact absurd qIn (nobody q)
        · exact allow q ⟨qIn, fun r rIn => (deciding_levels rank s sound knew d q r qIn rIn).mpr (top r rIn)⟩

omit known in
theorem deps_valid_iff (member : .document d ∈ s.log) :
    depsAccepted s d = true ↔ ∀ a ∈ d.deps, s.valid a = some true := by
  rw [depsAccepted, List.all_eq_true]
  have value : ∀ a ∈ d.deps, (s.valid a).getD true = true ↔ s.valid a = some true := by
    intro a dep
    obtain ⟨q, qIn, _, rfl⟩ := sound.docDeps d member a dep
    rw [settled_value rank s sound.steady q qIn, Option.getD_some, Option.some.injEq]
  exact ⟨fun all a dep => (value a dep).mp (all a dep), fun all a dep => (value a dep).mpr (all a dep)⟩

theorem document_valid_iff (member : .document d ∈ s.log) : s.valid d.dot = some true ↔
    (∀ a ∈ d.deps, s.valid a = some true) ∧
      ((∀ p, ¬ Deciding s knew d p) ∨ ∀ p, TopDeciding s knew d p → p.effect = .allow) := by
  have settled := sound.settled _ member
  rw [dot_document, isValid, is_valid_document_eq] at settled
  rw [settled, Option.some.injEq, Bool.and_eq_true, deps_valid_iff rank s sound d member,
    deepest_allows_iff rank s sound knew d known]
  exact and_comm

end Reading

theorem document_validity_causal (strategy : Strategy) (w : World) (run : CausalRun strategy w) :
    (∃ knew, Observed CausalSync (fun _ => strategy) w knew) ∧
    ∀ knew, Observed CausalSync (fun _ => strategy) w knew → ∀ i d, .document d ∈ (w.site i).state.log →
      ((w.site i).state.valid d.dot = some true ↔ (∀ a ∈ d.deps, (w.site i).state.valid a = some true) ∧
        ((∀ p, ¬ Deciding (w.site i).state knew d p) ∨ ∀ p, TopDeciding (w.site i).state knew d p → p.effect = .allow)) ∧
      ∀ p, .policy p ∈ (w.site i).state.log → p.tuple = d.tuple → p.effect = .allow →
        (covers p d.dot = true ↔ .document d ∈ knew p.dot) := by
  refine ⟨observed_exists CausalSync _ w run, ?_⟩
  intro knew observed i d member
  obtain ⟨rank, causal⟩ := causal_run strategy w run
  obtain ⟨faithful, _, told⟩ := observed_told _ w knew observed
  have known : ∀ p, .policy p ∈ (w.site i).state.log → p.tuple = d.tuple → p.effect = .allow →
      (covers p d.dot = true ↔ .document d ∈ knew p.dot) := by
    intro p pIn tuple allow
    exact covers_iff_known w knew told p d (log_recorded w faithful i _ pIn) (log_recorded w faithful i _ member)
      (congrArg AccessTuple.site tuple).symm allow
  exact ⟨document_valid_iff rank _ (causal.sound i) knew d known member, known⟩

def halfKnown : List Action :=
  [.document "B" (.insert 0 'b'), .sync "A" "B" [⟨"B", 1⟩], .rebuild "A", .document "B" (.insert 1 'c'),
    .policy "A" "B" .write .deny, .policy "A" "B" .write .allow,
    .sync "A" "B" [⟨"A", 1⟩, ⟨"A", 2⟩, ⟨"B", 1⟩, ⟨"B", 2⟩], .rebuild "A"]

theorem half_known_runs : (play .integrity halfKnown).isSome = true := by decide +kernel

def halfKnownWorld : World := (play .integrity halfKnown).get half_known_runs

theorem half_known_read : ∃ knew, Observed CausalSync (fun _ => .integrity) halfKnownWorld knew ∧
    .document ⟨⟨"B", 1⟩, [], .insert 0 'b'⟩ ∈ knew ⟨"A", 2⟩ ∧ .document ⟨⟨"B", 2⟩, [], .insert 1 'c'⟩ ∉ knew ⟨"A", 2⟩ := by
  have causal := document_validity_causal .integrity halfKnownWorld (played .integrity halfKnown half_known_runs)
  obtain ⟨knew, observed⟩ := causal.1
  have allow : Operation.policy ⟨⟨"A", 2⟩, "B", .write, .allow, [⟨"A", 1⟩], some ⟨"B", 1⟩, []⟩ ∈
    (halfKnownWorld.site "A").state.log := by decide +kernel
  refine ⟨knew, observed, ?_, ?_⟩
  · exact ((causal.2 knew observed "A" ⟨⟨"B", 1⟩, [], .insert 0 'b'⟩ (by decide +kernel)).2 _ allow rfl rfl).mp (by decide)
  · exact fun had => absurd (((causal.2 knew observed "A" ⟨⟨"B", 2⟩, [], .insert 1 'c'⟩ (by decide +kernel)).2 _ allow rfl
      rfl).mpr had) (by decide)

end Accure
