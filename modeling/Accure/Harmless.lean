import Accure.Reports

set_option autoImplicit false

namespace Accure

-- The log with the received ops linked to it, as effect_policy links them before
-- it judges. The flags are those of the log.
def State.linked (s : State) (rows : List PolicyOp) : State := rows.foldl admitPolicy s

def Knows (s : State) (rows : List PolicyOp) (p : PolicyOp) (d : Dot) : Prop :=
  d ∈ ((s.linked rows).dagAt p.tuple).ancestors p.dot

-- The op is, or rests on, a void op of the log or a received one of the losing
-- effect that does not know a valid opposite of the log.
def Doomed (s : State) (rows : List PolicyOp) (p : PolicyOp) : Prop :=
  ∃ r, (r.dot = p.dot ∨ Knows s rows p r.dot) ∧ ((r ∈ s.policies ∧ s.markedValid r.dot = false) ∨
    (r ∈ rows ∧ s.strategy.favors r.effect = false ∧ ∃ y ∈ s.policies, y.tuple = r.tuple ∧
      s.strategy.favors y.effect = true ∧ s.markedValid y.dot = true ∧ ¬ Knows s rows r y.dot))

structure Harmless (s : State) (rows : List PolicyOp) : Prop where
  policies : ∀ p ∈ rows, s.strategy.favors p.effect = true → ¬ Doomed s rows p →
    ∀ q ∈ s.policies, q.tuple = p.tuple → s.markedValid q.dot = true →
      ∀ r ∈ s.policies, r.tuple = p.tuple → s.strategy.favors r.effect = false →
        r.dot = q.dot ∨ r.dot ∈ (s.dagAt p.tuple).ancestors q.dot → Knows s rows p r.dot
  documents : ∀ d, .document d ∈ s.log → depsAccepted s d = true → ∀ p ∈ rows, p.tuple = d.tuple →
    covers p d.dot = true → ¬ Doomed s rows p → s.valid d.dot = some (decide (p.effect = .allow))

theorem linked_dag (rows : List PolicyOp) (s u : State) (same : ∀ t, s.dagAt t = u.dagAt t) (t : AccessTuple) :
    (s.linked rows).dagAt t = (rows.foldl effectPolicy u).dagAt t := by
  induction rows generalizing s u with
  | nil => exact same t
  | cons head tail ih =>
      refine ih (admitPolicy s head) (effectPolicy u head) fun t => ?_
      rw [effect_policy_dag]
      by_cases here : t = head.tuple
      · rw [here, admit_dag_here, admit_dag_here, same]
      · rw [admit_dag_elsewhere s head t here, admit_dag_elsewhere u head t here, same]

theorem fold_policies_strategy (rows : List PolicyOp) (s : State) : (rows.foldl effectPolicy s).strategy = s.strategy := by
  induction rows generalizing s with
  | nil => rfl
  | cons head tail ih => rw [List.foldl_cons, ih, effect_policy_strategy]

theorem turns_after (rank : Dot → Nat) (s : State) (before rest : List PolicyOp) (turns : Turns rank s (before ++ rest)) :
    Turns rank (before.foldl effectPolicy s) rest := by
  intro front p back split
  have turn := turns (before ++ front) p back (by rw [split, List.append_assoc])
  rwa [List.foldl_append] at turn

theorem turns_before (rank : Dot → Nat) (s : State) (before rest : List PolicyOp) (turns : Turns rank s (before ++ rest)) :
    Turns rank s before := by
  intro front p back split
  exact turns front p (back ++ rest) (by rw [split, List.append_assoc, List.cons_append])

theorem later_before (rank : Dot → Nat) (rows : List PolicyOp) (s : State) (turns : Turns rank s rows) (t : AccessTuple)
    (d : Dot) (q : PolicyOp) (member : .policy q ∈ s.log) :
    ((rows.foldl effectPolicy s).dagAt t).Before d q.dot ↔ (s.dagAt t).Before d q.dot := by
  induction rows generalizing s with
  | nil => exact Iff.rfl
  | cons head tail ih =>
      obtain ⟨sound, arrives⟩ := turns [] head tail rfl
      rw [List.foldl_cons, ih (effectPolicy s head) (turns_tail rank s head tail turns) (by simp [member]), effect_policy_dag]
      by_cases here : t = head.tuple
      · rw [here]
        exact Conflict.before_old _ _ head.dot (admit_extends rank s head sound.wired arrives.fits) rank
          (graph_ranked rank s sound.wired head.tuple) d q.dot (arrives.fresh _ member)
      · rw [admit_dag_elsewhere s head t here]

theorem before_logged (rank : Dot → Nat) (s : State) (sound : Sound rank s) (t : AccessTuple) (d e : Dot)
    (below : (s.dagAt t).Before d e) : ∃ p, .policy p ∈ s.log ∧ p.tuple = t ∧ p.dot = d :=
  (sound.nodes t d).mp (dag_before_ends _ d e below).1

theorem accepted_at_eq (rank : Dot → Nat) (s : State) (p : PolicyOp) (sound : Sound rank s)
    (arrives : PolicyArrives rank s p) : AcceptedAt s p ↔ (∀ a ∈ p.deps, s.markedValid a = true) ∧
      (s.strategy.favors p.effect = true ∨ ∀ q, Valid s p.tuple q → s.strategy.favors q.effect = true →
        ((effectPolicy s p).dagAt p.tuple).Before q.dot p.dot) := by
  have parents := parents_of_op rank _ (admit_wired rank s p sound.wired arrives.fits) p (by simp)
  rw [accepted_at_iff rank s p sound arrives]
  constructor
  · intro accepted
    have deps : ∀ a ∈ p.deps, s.markedValid a = true := fun a dep => accepted.1 a ((parents a).mpr dep)
    exact ⟨deps, (arrival_accepted rank s p sound arrives deps).mp accepted⟩
  · exact fun ⟨deps, either⟩ => (arrival_accepted rank s p sound arrives deps).mpr either

section Batch

variable (rank : Dot → Nat) (s : State) (old : Sound rank s) (rows : List PolicyOp) (turns : Turns rank s rows)
variable (after : Sound rank (rows.foldl effectPolicy s))

include after in
theorem batch_same (p q : PolicyOp) (pIn : .policy p ∈ s.log ∨ p ∈ rows) (qIn : .policy q ∈ s.log ∨ q ∈ rows)
    (same : p.dot = q.dot) : p = q := by
  have inside : ∀ p, .policy p ∈ s.log ∨ p ∈ rows → .policy p ∈ (rows.foldl effectPolicy s).log := by
    intro p place
    rw [fold_policies_log, List.mem_append, List.mem_map]
    exact place.imp_right fun row => ⟨p, row, rfl⟩
  exact Operation.policy.inj (same_dot_same_op _ after.nodup _ _ (inside p pIn) (inside q qIn) same)

include after in
theorem batch_fresh (p : PolicyOp) (row : p ∈ rows) (q : PolicyOp) (logged : .policy q ∈ s.log) : q.dot ≠ p.dot := by
  have nodup := after.nodup
  rw [fold_policies_log, List.map_append, List.nodup_append] at nodup
  exact nodup.2.2 _ (List.mem_map_of_mem logged) _ (List.mem_map_of_mem (List.mem_map_of_mem row))

variable (before : List PolicyOp) (p : PolicyOp) (behind : List PolicyOp) (split : rows = before ++ p :: behind)

include split in
theorem turn_place (q : PolicyOp) (member : .policy q ∈ (before.foldl effectPolicy s).log) :
    .policy q ∈ s.log ∨ q ∈ rows := by
  rw [fold_policies_log, List.mem_append, List.mem_map] at member
  refine member.imp_right ?_
  rintro ⟨x, row, same⟩
  obtain rfl := Operation.policy.inj same
  rw [split]
  exact List.mem_append_left _ row

include turns split

theorem turn_knows (d : Dot) : Knows s rows p d ↔
    ((effectPolicy (before.foldl effectPolicy s) p).dagAt p.tuple).Before d p.dot := by
  have rest := turns_tail rank _ p behind (turns_after rank s before _ (split ▸ turns))
  rw [Knows, mem_ancestors, linked_dag rows s s (fun _ => rfl), ← later_before rank behind _ rest p.tuple d p (by simp), split,
    List.foldl_append, List.foldl_cons]

theorem turn_logged (r : PolicyOp) (d : Dot) (t : AccessTuple) (member : .policy r ∈ (before.foldl effectPolicy s).log) :
    ((s.linked rows).dagAt t).Before d r.dot ↔ ((before.foldl effectPolicy s).dagAt t).Before d r.dot := by
  have rest := turns_after rank s before _ (split ▸ turns)
  rw [linked_dag rows s s (fun _ => rfl), ← later_before rank (p :: behind) _ rest t d r member, split, List.foldl_append]

omit turns split in
theorem turn_kept (q : PolicyOp) (member : .policy q ∈ s.log) : .policy q ∈ (before.foldl effectPolicy s).log := by
  rw [fold_policies_log]
  exact List.mem_append_left _ member

include after old

-- A received op of the losing effect that has stood up to here knows what is
-- valid against it: no op of the log can rest on one received after it.
theorem standing_knows (r y : PolicyOp) (row : r ∈ rows) (logged : .policy r ∈ (before.foldl effectPolicy s).log)
    (marked : (before.foldl effectPolicy s).markedValid r.dot = true) (yLogged : .policy y ∈ s.log)
    (yValid : Valid (before.foldl effectPolicy s) r.tuple y) (opposed : y.effect ≠ r.effect) : Knows s rows r y.dot := by
  obtain ⟨sound, _⟩ := turns before p behind split
  rcases opposites_ordered rank _ sound r.tuple r y ⟨logged, rfl, marked⟩ yValid opposed with above | known
  · rw [later_before rank before s (turns_before rank s before _ (split ▸ turns)) _ _ y yLogged] at above
    obtain ⟨z, zIn, _, zDot⟩ := before_logged rank s old r.tuple _ _ above
    exact absurd zDot (batch_fresh rank s rows after r row z zIn)
  · rw [Knows, mem_ancestors, turn_logged rank s rows turns before p behind split r y.dot r.tuple logged]
    exact known

-- As long as the flags of the log are what they were, no doomed op is accepted.
theorem accepted_not_doomed
    (same : ∀ q, .policy q ∈ s.log → (before.foldl effectPolicy s).markedValid q.dot = s.markedValid q.dot)
    (accepted : AcceptedAt (before.foldl effectPolicy s) p) : ¬ Doomed s rows p := by
  obtain ⟨sound, arrives⟩ := turns before p behind split
  have next := effect_policy_sound rank _ p sound arrives
  have strategy : (before.foldl effectPolicy s).strategy = s.strategy := fold_policies_strategy before s
  have row : p ∈ rows := by simp [split]
  rintro ⟨r, under, doom⟩
  rw [turn_knows rank s rows turns before p behind split] at under
  have marked : (effectPolicy (before.foldl effectPolicy s) p).markedValid r.dot = true := by
    have here := (arrival_accepted_at rank _ p sound arrives).mpr accepted
    rcases under with same | below
    · rw [same, here]
    · exact Conflict.valid_before (State.graph _ p.tuple) rank (graph_ranked rank _ next.wired p.tuple) (State.Marked _)
        (graph_settled rank _ next.steady p.tuple) r.dot p.dot below here
  have stays (r : PolicyOp) (logged : .policy r ∈ (before.foldl effectPolicy s).log)
      (marked : (effectPolicy (before.foldl effectPolicy s) p).markedValid r.dot = true) :
      (before.foldl effectPolicy s).markedValid r.dot = true :=
    ((arrival_spares_iff rank _ p sound arrives r logged).mp marked).1
  rcases doom with ⟨rIn, void⟩ | ⟨rRow, loses, y, yIn, tuple, wins, yMarked, unknown⟩
  · have logged := (mem_state_policies s r).mp rIn
    have still := stays r (turn_kept s before r logged) marked
    rw [same r logged, void] at still
    exact absurd still Bool.false_ne_true
  · have yLogged := (mem_state_policies s y).mp yIn
    have yValid : Valid (before.foldl effectPolicy s) r.tuple y :=
      ⟨turn_kept s before y yLogged, tuple, (same y yLogged).trans yMarked⟩
    apply unknown
    rcases under with here | below
    · obtain rfl := batch_same rank s rows after r p (Or.inr rRow) (Or.inr row) here
      rw [turn_knows rank s rows turns before r behind split]
      have known := ((accepted_at_eq rank _ r sound arrives).mp accepted).2
      rw [strategy] at known
      exact known.resolve_left (by simp [loses]) y yValid wins
    · obtain ⟨x, xIn, _, xDot⟩ := before_logged rank _ next p.tuple _ _ below
      have different : x ≠ p := by
        rintro rfl
        exact lt_irrefl _ (xDot ▸ before_rank rank _ next x.tuple r.dot x.dot below)
      have logged : .policy x ∈ (before.foldl effectPolicy s).log := by simpa [different] using xIn
      obtain rfl := batch_same rank s rows after x r (turn_place s rows before p behind split x logged) (Or.inr rRow) xDot
      have opposed : y.effect ≠ x.effect := by
        intro equal
        rw [equal, loses] at wins
        exact absurd wins Bool.false_ne_true
      exact standing_knows rank s old rows turns after before p behind split x y rRow logged (stays x logged marked) yLogged
        yValid opposed

end Batch

section Kept

variable (rank : Dot → Nat) (s : State) (old : Sound rank s) (rows : List PolicyOp) (turns : Turns rank s rows)
variable (after : Sound rank (rows.foldl effectPolicy s)) (harmless : Harmless s rows)

include old turns after harmless

theorem harmless_keeps (before rest : List PolicyOp) (split : rows = before ++ rest) (q : PolicyOp)
    (member : .policy q ∈ s.log) : (before.foldl effectPolicy s).markedValid q.dot = s.markedValid q.dot := by
  induction before using List.reverseRecOn generalizing rest q with
  | nil => rfl
  | append_singleton before p ih =>
      have here : rows = before ++ p :: rest := by rw [split, List.append_assoc, List.singleton_append]
      have same := ih (p :: rest) here
      obtain ⟨sound, arrives⟩ := turns before p rest here
      have strategy := fold_policies_strategy before s
      rw [List.foldl_append, List.foldl_cons, List.foldl_nil, ← same q member, Bool.eq_iff_iff,
        arrival_spares_iff rank _ p sound arrives q (turn_kept s before q member)]
      refine ⟨And.left, fun marked => ⟨marked, ?_⟩⟩
      intro tuple wins accepted r rIn rTuple loses under
      rw [strategy] at wins loses
      have rPlace := turn_place s rows before p rest here r ((mem_state_policies _ r).mp rIn)
      have below : r.dot = q.dot ∨ (s.dagAt p.tuple).Before r.dot q.dot := by
        refine under.imp_right fun under => ?_
        rwa [mem_ancestors, later_before rank before s (turns_before rank s before _ (here ▸ turns)) _ _ q member] at under
      have logged : .policy r ∈ s.log := by
        rcases below with equal | below
        · exact batch_same rank s rows after r q rPlace (Or.inl member) equal ▸ member
        · obtain ⟨z, zIn, _, zDot⟩ := before_logged rank s old p.tuple _ _ below
          exact batch_same rank s rows after z r (Or.inl zIn) rPlace zDot ▸ zIn
      have known := harmless.policies p (by simp [here]) wins
        (accepted_not_doomed rank s old rows turns after before p rest here same accepted) q ((mem_state_policies s q).mpr member)
        tuple ((same q member).symm.trans marked) r ((mem_state_policies s r).mpr logged) rTuple loses
        (below.imp_right (mem_ancestors _ _ _).mpr)
      rw [mem_ancestors, ← effect_policy_dag]
      exact (turn_knows rank s rows turns before p rest here r.dot).mp known

theorem harmless_unmoved : ∀ o ∈ s.log, (rows.foldl effectPolicy s).valid o.dot = s.valid o.dot := by
  have keeps := harmless_keeps rank s old rows turns after harmless
  refine (batch_unmoved_iff rank s old rows turns after).mpr ⟨?_, ?_⟩
  · intro q member marked
    have logged := (mem_state_policies s q).mp member
    exact ((lasts_iff rank rows s turns q logged).mp ((keeps rows [] (by simp) q logged).trans marked)).2
  · intro d member deps before p behind split overrides
    refine harmless.documents d member deps p (by simp [split]) overrides.tuple overrides.covers ?_
    exact accepted_not_doomed rank s old rows turns after before p behind split (keeps before _ split) overrides.stands.1

end Kept

theorem lasts_at (q : PolicyOp) (before : List PolicyOp) (p : PolicyOp) (behind : List PolicyOp) (s : State)
    (lasts : Lasts q s (before ++ p :: behind)) : Spares (before.foldl effectPolicy s) p q := by
  induction before generalizing s with
  | nil => exact lasts.1
  | cons head tail ih => exact ih (effectPolicy s head) lasts.2

theorem lasts_elsewhere (q : PolicyOp) (rows : List PolicyOp) (s : State) (elsewhere : ∀ p ∈ rows, p.tuple ≠ q.tuple) :
    Lasts q s rows := by
  induction rows generalizing s with
  | nil => trivial
  | cons head tail ih =>
      exact ⟨fun same => absurd same.symm (elsewhere head List.mem_cons_self),
        ih _ fun p member => elsewhere p (List.mem_cons_of_mem _ member)⟩

theorem elsewhere_keeps (rank : Dot → Nat) (rows : List PolicyOp) (s : State) (turns : Turns rank s rows) (q : PolicyOp)
    (member : .policy q ∈ s.log) (elsewhere : ∀ p ∈ rows, p.tuple ≠ q.tuple) :
    (rows.foldl effectPolicy s).markedValid q.dot = s.markedValid q.dot := by
  induction rows generalizing s with
  | nil => rfl
  | cons head tail ih =>
      obtain ⟨sound, arrives⟩ := turns [] head tail rfl
      rw [List.foldl_cons, ih _ (turns_tail rank s head tail turns) (by simp [member])
        fun p later => elsewhere p (List.mem_cons_of_mem _ later)]
      rw [State.markedValid, State.markedValid, effect_keeps_policy rank s head sound.steady arrives.fits sound.linked q member
        (elsewhere head List.mem_cons_self).symm]

section Apart

variable (rank : Dot → Nat) (s : State) (old : Sound rank s) (rows : List PolicyOp) (turns : Turns rank s rows)
variable (after : Sound rank (rows.foldl effectPolicy s)) (apart : (rows.map PolicyOp.tuple).Nodup)
variable (before : List PolicyOp) (p : PolicyOp) (behind : List PolicyOp) (split : rows = before ++ p :: behind)

include apart split in
theorem apart_sides : (∀ q ∈ before, q.tuple ≠ p.tuple) ∧ ∀ q ∈ behind, q.tuple ≠ p.tuple := by
  rw [split, List.map_append, List.map_cons, List.nodup_append, List.nodup_cons] at apart
  obtain ⟨_, ⟨alone, _⟩, different⟩ := apart
  exact ⟨fun q member => different _ (List.mem_map_of_mem member) _ List.mem_cons_self,
    fun q member same => alone (same ▸ List.mem_map_of_mem member)⟩

include turns apart split

theorem apart_accepted (spared : ¬ Doomed s rows p) : AcceptedAt (before.foldl effectPolicy s) p := by
  obtain ⟨sound, arrives⟩ := turns before p behind split
  have next := effect_policy_sound rank _ p sound arrives
  have row : p ∈ rows := by simp [split]
  have known := turn_knows rank s rows turns before p behind split
  have own (q : PolicyOp) (member : .policy q ∈ (before.foldl effectPolicy s).log) (tuple : q.tuple = p.tuple) :
      .policy q ∈ s.log ∧ (before.foldl effectPolicy s).markedValid q.dot = s.markedValid q.dot := by
    have sides := (apart_sides rows apart before p behind split).1
    have logged : .policy q ∈ s.log := by
      rw [fold_policies_log, List.mem_append, List.mem_map] at member
      refine member.resolve_right ?_
      rintro ⟨x, xIn, same⟩
      exact sides x xIn (Operation.policy.inj same ▸ tuple)
    exact ⟨logged, elsewhere_keeps rank before s (turns_before rank s before _ (split ▸ turns)) q logged fun x xIn =>
      tuple ▸ sides x xIn⟩
  refine (accepted_at_eq rank _ p sound arrives).mpr ⟨fun a dep => ?_, ?_⟩
  · obtain ⟨q, member, tuple, rfl⟩ := arrives.deps a dep
    obtain ⟨logged, same⟩ := own q member tuple
    by_contra void
    have edge := (parents_of_op rank _ next.wired p (by simp) q.dot).mpr dep
    refine spared ⟨q, Or.inr ((known q.dot).mpr (.single edge)), Or.inl ⟨(mem_state_policies s q).mpr logged, ?_⟩⟩
    rw [← same]
    simpa using void
  · rw [fold_policies_strategy]
    by_cases wins : s.strategy.favors p.effect = true
    · exact Or.inl wins
    · refine Or.inr fun q valid qWins => ?_
      obtain ⟨logged, same⟩ := own q valid.1 valid.2.1
      by_contra unknown
      exact spared ⟨p, Or.inl rfl, Or.inr ⟨row, by simpa using wins, q, (mem_state_policies s q).mpr logged, valid.2.1, qWins,
        same ▸ valid.2.2, fun knows => unknown ((known q.dot).mp knows)⟩⟩

end Apart

theorem unmoved_harmless (rank : Dot → Nat) (s : State) (rows : List PolicyOp) (turns : Turns rank s rows)
    (apart : (rows.map PolicyOp.tuple).Nodup) (unmoved : Unmoved s rows) : Harmless s rows := by
  constructor
  · intro p row wins spared q qIn tuple marked r rIn rTuple loses under
    obtain ⟨before, behind, split⟩ := List.append_of_mem row
    have accepted := apart_accepted rank s rows turns apart before p behind split spared
    have spares := lasts_at q before p behind s (split ▸ unmoved.policies q qIn marked)
    have logged := (mem_state_policies s r).mp rIn
    have qLogged := (mem_state_policies s q).mp qIn
    have prefix_ := turns_before rank s before _ (split ▸ turns)
    rw [turn_knows rank s rows turns before p behind split, effect_policy_dag, ← mem_ancestors]
    refine spares tuple (by rwa [fold_policies_strategy]) accepted r
      ((mem_state_policies _ r).mpr (turn_kept s before r logged)) rTuple (by rwa [fold_policies_strategy]) ?_
    rwa [mem_ancestors, later_before rank before s prefix_ _ _ q qLogged, ← mem_ancestors]
  · intro d member deps p row tuple covered spared
    obtain ⟨before, behind, split⟩ := List.append_of_mem row
    have sides := apart_sides rows apart before p behind split
    refine unmoved.documents d member deps before p behind split ⟨tuple, covered, ⟨?_, ?_⟩, ?_⟩
    · exact apart_accepted rank s rows turns apart before p behind split spared
    · exact lasts_elsewhere p behind _ sides.2
    · intro mid q rest inner same
      exact absurd (same.trans tuple.symm) (sides.2 q (by simp [inner]))

theorem rebuild_reports (strategy : Strategy) (w : World) (run : CausalRun strategy w) (i : SiteId) :
    (Harmless (w.site i).state (newPolicies (w.site i).state (w.site i).doc) →
      Reported (w.site i).state (rebuildFromAutomerge (w.site i).state (w.site i).doc).1
        (rebuildFromAutomerge (w.site i).state (w.site i).doc).2) ∧
    (((newPolicies (w.site i).state (w.site i).doc).map PolicyOp.tuple).Nodup →
      Reported (w.site i).state (rebuildFromAutomerge (w.site i).state (w.site i).doc).1
        (rebuildFromAutomerge (w.site i).state (w.site i).doc).2 →
      Harmless (w.site i).state (newPolicies (w.site i).state (w.site i).doc)) := by
  obtain ⟨rank, causal⟩ := causal_run strategy w run
  have can := replayable rank w causal.toGrounded i
  obtain ⟨turns, after⟩ := replay_policies rank _ _ can
  rw [reported_iff rank _ _ can]
  constructor
  · exact harmless_unmoved rank _ (causal.sound i) _ turns after
  · intro apart same
    exact unmoved_harmless rank _ _ turns apart ((batch_unmoved_iff rank _ (causal.sound i) _ turns after).mp same)

def concurring : List Action :=
  [.document "C" (.insert 0 'c'), .sync "A" "C" [⟨"C", 1⟩], .rebuild "A", .policy "A" "C" .write .deny,
    .sync "B" "C" [⟨"C", 1⟩], .rebuild "B", .policy "B" "C" .write .deny,
    .sync "C" "A" [⟨"C", 1⟩, ⟨"A", 1⟩], .rebuild "C", .sync "C" "B" [⟨"C", 1⟩, ⟨"A", 1⟩, ⟨"B", 1⟩]]

theorem concurring_runs : (play .integrity concurring).isSome = true := by decide +kernel

theorem concurring_reported :
    let c := ((play .integrity concurring).get concurring_runs).site "C"
    Reported c.state (rebuildFromAutomerge c.state c.doc).1 (rebuildFromAutomerge c.state c.doc).2 := by
  intro c
  apply (rebuild_reports .integrity _ (played .integrity concurring concurring_runs) "C").1
  let denyA : PolicyOp := ⟨⟨"A", 1⟩, "C", .write, .deny, [], some ⟨"C", 1⟩, []⟩
  let denyB : PolicyOp := ⟨⟨"B", 1⟩, "C", .write, .deny, [], some ⟨"C", 1⟩, []⟩
  have rows : newPolicies c.state c.doc = [denyB] := by decide +kernel
  have policies : c.state.policies = [denyA] := by decide +kernel
  have log : c.state.log = [.document ⟨⟨"C", 1⟩, [], .insert 0 'c'⟩, .policy denyA] := by decide +kernel
  have strategy : c.state.strategy = .integrity := by decide +kernel
  refine ⟨?_, ?_⟩
  · intro p _ _ _ q _ _ _ r rIn _ loses
    rw [policies] at rIn
    rw [List.mem_singleton.mp rIn, strategy] at loses
    cases loses
  · intro d member _ p row _ _ _
    rw [rows] at row
    have same : d = ⟨⟨"C", 1⟩, [], .insert 0 'c'⟩ := by
      rw [log] at member
      simpa using member
    rw [List.mem_singleton.mp row, same]
    decide +kernel

-- A's deny hides C's edit, and C's rebuild says no word of it.
def silenced : List Action :=
  [.document "C" (.insert 0 'c'), .sync "A" "C" [⟨"C", 1⟩], .rebuild "A", .policy "A" "C" .write .deny,
    .sync "C" "A" [⟨"C", 1⟩, ⟨"A", 1⟩]]

theorem silenced_runs : (play .integrity silenced).isSome = true := by decide +kernel

theorem undo_unreported : ¬ ∀ strategy w, CausalRun strategy w → ∀ i,
    Reported (w.site i).state (rebuildFromAutomerge (w.site i).state (w.site i).doc).1
      (rebuildFromAutomerge (w.site i).state (w.site i).doc).2 := by
  intro holds
  have reported := holds .integrity _ (played .integrity silenced silenced_runs) "C"
  have hidden := reported.flags (.document ⟨⟨"C", 1⟩, [], .insert 0 'c'⟩) (by decide +kernel)
  exact absurd hidden (by decide +kernel)

end Accure
